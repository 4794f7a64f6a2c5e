import CBoundary.FunctionDecl
import CBoundary.Proofs.StatementSplit
import Mathlib.Data.List.Forall2

/-!
Signatures and the names of parameters. A parameter list is read as statements, which end at its
commas. The type of a parameter is its code without qualifiers, and without the name at its end. So
a name makes no difference where it stands last, and where it is left out no other name stands last
behind a word; parameters that are written alike make none either. The name of an array or of a
function pointer does not stand last, and the last name of a record without a parameter name is its
tag; there the signatures differ. Main statements: `code_ofTokens` and `signature_congr`.
-/
namespace CBoundary

open Keyword

namespace Statement

open TokenList

/-- Nothing but commas ends a statement in the tokens. -/
structure CutAtCommas (tokens : List Token) : Prop where
  noDirective : ∀ t ∈ tokens, t.kind ≠ .directive
  noSemicolon : ∀ t ∈ tokens, t.isPunct ";" = false
  noBrace : ∀ t ∈ tokens, t.isGroup .brace = false
  noCall : ∀ part ∈ tokens.splitOnP (·.isPunct ","), ∀ line t behind, part = line ++ t :: behind →
    t.kind = .newline → isBareCall (line ++ [t]) = false

section Cut

variable {t : Token} {taken part rest tokens trail : List Token}

theorem isBareCall_append_trivia (h : ∀ t ∈ trail, t.kind.isTrivia = true) :
    isBareCall (trail ++ rest) = isBareCall rest := by
  rw [isBareCall, isBareCall, code_append_trivia h]

/-- Trivia in front of a list belongs to its first part. -/
theorem splitOnP_append_trivia (h : ∀ t ∈ trail, t.kind.isTrivia = true) :
    (trail ++ rest).splitOnP (·.isPunct ",") =
      (rest.splitOnP (·.isPunct ",")).modifyHead (trail ++ ·) := by
  induction trail with
  | nil =>
    obtain ⟨first, others, hsplit⟩ :=
      List.exists_cons_of_ne_nil (List.splitOnP_ne_nil (·.isPunct ",") rest)
    rw [List.nil_append, hsplit]
    rfl
  | cons t trail ih =>
    obtain ⟨ht, htrail⟩ := List.forall_mem_cons.1 h
    have hcomma : ¬ t.isPunct "," = true := by
      intro hcomma
      have hseparator := isSeparator_of_isTrivia ht
      simp [isSeparator_of_comma hcomma] at hseparator
    rw [List.cons_append, List.splitOnP_cons_eq_if_modifyHead, if_neg hcomma, ih htrail,
      List.modifyHead_modifyHead]
    rfl

theorem CutAtCommas.of_append_trivia (h : CutAtCommas (trail ++ rest))
    (htrail : ∀ t ∈ trail, t.kind.isTrivia = true) : CutAtCommas rest where
  noDirective t ht := h.noDirective t (List.mem_append_right trail ht)
  noSemicolon t ht := h.noSemicolon t (List.mem_append_right trail ht)
  noBrace t ht := h.noBrace t (List.mem_append_right trail ht)
  noCall := by
    have hcall := h.noCall
    rw [splitOnP_append_trivia htrail] at hcall
    cases hsplit : rest.splitOnP (·.isPunct ",") with
    | nil => simp
    | cons first others =>
      rw [hsplit, List.modifyHead_cons] at hcall
      obtain ⟨hfirst, hothers⟩ := List.forall_mem_cons.1 hcall
      refine List.forall_mem_cons.2 ⟨?_, hothers⟩
      intro line t behind hline hnewline
      have hbare := hfirst (trail ++ line) t behind (by rw [hline, List.append_assoc]) hnewline
      rwa [List.append_assoc, isBareCall_append_trivia htrail] at hbare

theorem CutAtCommas.goes_on (h : CutAtCommas (part ++ rest))
    (hcomma : ∀ t ∈ part, t.isPunct "," = false) :
    ∀ t ∈ part, t.kind ≠ .directive ∧ t.isSeparator = false ∧ t.isGroup .brace = false := by
  intro t ht
  have hmem : t ∈ part ++ rest := List.mem_append_left rest ht
  refine ⟨h.noDirective t hmem, ?_, h.noBrace t hmem⟩
  rw [Token.isSeparator, hcomma t ht, h.noSemicolon t hmem]
  rfl

theorem CutAtCommas.split_append (h : CutAtCommas (part ++ rest))
    (hcomma : ∀ t ∈ part, t.isPunct "," = false)
    (hcall : ∀ line t behind, part = line ++ t :: behind → t.kind = .newline →
      isBareCall (line ++ [t]) = false) :
    split [] (part ++ rest) = split part rest := by
  rw [split_append_part, List.nil_append]
  rintro lead t later rfl
  obtain ⟨hdirective, hseparator, hbrace⟩ := h.goes_on hcomma t (by simp)
  exact ⟨hdirective, hseparator, by simp [hbrace], by simpa using hcall lead t later rfl⟩

theorem CutAtCommas.behind_comma (h : CutAtCommas (part ++ t :: rest))
    (hcomma : t.isPunct "," = true) : CutAtCommas rest := by
  refine ⟨fun u hu => h.noDirective u (by simp [hu]), fun u hu => h.noSemicolon u (by simp [hu]),
    fun u hu => h.noBrace u (by simp [hu]), ?_⟩
  intro piece hpiece
  refine h.noCall piece ?_
  rw [List.splitOnP_append_cons (p := (·.isPunct ",")) part rest hcomma]
  exact List.mem_append_right _ hpiece

theorem code_append_comma (h : t.isPunct "," = true)
    (htrail : ∀ u ∈ trail, u.kind.isTrivia = true) :
    TokenList.code (part ++ t :: trail) = TokenList.code part := by
  have hcomma : TokenList.code [t] = [] := by
    simp [TokenList.code, Token.isCode, isSeparator_of_comma h]
  rw [List.append_cons, code_append, code_append, hcomma, code_trivia htrail, List.append_nil,
    List.append_nil]

/-- Without a comma all tokens are one statement. -/
theorem CutAtCommas.split_alone (h : CutAtCommas tokens)
    (hnone : ∀ t ∈ tokens, t.isPunct "," = false) : split [] tokens = (tokens, []) := by
  have hcall := h.noCall tokens (by rw [List.splitOnP_eq_singleton hnone]; simp)
  rw [← List.append_nil tokens] at h ⊢
  rw [h.split_append hnone hcall, split, List.append_nil]

/-- The first statement ends behind the first comma and the trivia that follows it. -/
theorem CutAtCommas.split_at_comma (h : CutAtCommas (part ++ t :: rest))
    (hcomma : t.isPunct "," = true) (hpart : ∀ t ∈ part, t.isPunct "," = false) :
    split [] (part ++ t :: rest) =
      (part ++ t :: (splitTrailing rest).1, (splitTrailing rest).2) := by
  have hcall := h.noCall part (by
    rw [List.splitOnP_append_cons_of_forall_mem hpart t hcomma rest]
    exact List.mem_cons_self)
  rw [h.split_append hpart hcall, split_separator (isSeparator_of_comma hcomma)]

/-- The code of the statements is the code between the commas. Statements without code and
empty parts are left out. -/
theorem code_ofTokens (h : CutAtCommas tokens) :
    ((ofTokens tokens).map fun s => TokenList.code s.tokens).filter (· ≠ []) =
      ((tokens.splitOnP (·.isPunct ",")).map TokenList.code).filter (· ≠ []) := by
  induction hn : tokens.length using Nat.strongRecOn generalizing tokens with
  | ind n ih =>
    cases hfind : tokens.find? (·.isPunct ",") with
    | none =>
      have hnone : ∀ t ∈ tokens, t.isPunct "," = false := by
        simpa using List.find?_eq_none.1 hfind
      rw [List.splitOnP_eq_singleton hnone]
      cases tokens with
      | nil => simp [ofTokens, TokenList.code]
      | cons u tokens =>
        rw [ofTokens, h.split_alone hnone, ofTokens, List.map_singleton, List.map_singleton]
    | some t =>
      obtain ⟨hcomma, part, rest, rfl, hpart⟩ := List.find?_eq_some_iff_append.1 hfind
      simp only [Bool.not_eq_true'] at hpart
      have hsplit := h.split_at_comma hcomma hpart
      have htrail := splitTrailing_isTrivia rest
      obtain ⟨trail, later, hpair⟩ : ∃ trail later, splitTrailing rest = (trail, later) :=
        ⟨_, _, rfl⟩
      have hrest := splitTrailing_append rest
      rw [hpair] at htrail hrest hsplit
      obtain rfl := hrest
      have hbehind := (h.behind_comma hcomma).of_append_trivia htrail
      have hlength : later.length < n := by
        simp only [List.length_append, List.length_cons] at hn
        omega
      obtain ⟨first, others, hlater⟩ :=
        List.exists_cons_of_ne_nil (List.splitOnP_ne_nil (·.isPunct ",") later)
      have hih := ih _ hlength hbehind rfl
      rw [hlater, List.map_cons] at hih
      rw [ofTokens_of_ne_nil (by simp), hsplit,
        List.splitOnP_append_cons_of_forall_mem hpart t hcomma, splitOnP_append_trivia htrail,
        hlater, List.modifyHead_cons, List.map_cons, List.map_cons, List.map_cons,
        code_append_trivia htrail, code_append_comma hcomma htrail, List.filter_cons,
        List.filter_cons, hih]

/-- On one line no call is taken for a statement. -/
theorem cutAtCommas_of_oneLine
    (h : ∀ t ∈ tokens, t.kind ≠ .directive ∧ t.isPunct ";" = false ∧ t.isGroup .brace = false)
    (hline : ∀ part ∈ tokens.splitOnP (·.isPunct ","), ∀ t ∈ part, t.kind ≠ .newline) :
    CutAtCommas tokens where
  noDirective t ht := (h t ht).1
  noSemicolon t ht := (h t ht).2.1
  noBrace t ht := (h t ht).2.2
  noCall := by
    rintro part hpart line t behind rfl hnewline
    exact absurd hnewline (hline _ hpart t (by simp))

end Cut

end Statement

/-- The token without its place. -/
def Token.placeless (t : Token) : Token := { t with index := 0, span := Span.nowhere }

namespace FunctionDecl

/-- The tokens without the name at their end, if there is another word. -/
def withoutName (bare : List Token) : List Token :=
  if 2 ≤ bare.countP (·.kind == .word) && bare.getLast?.any isName then bare.dropLast else bare

/-- The type that a signature shows for a parameter with the given code. -/
def typeText (code : List Token) : String :=
  TokenList.shortRepr (withoutName (withoutQualifiers code))

/-- The code of the parameters, which stand between commas. -/
def parameterCodes (f : FunctionDecl) : List (List Token) :=
  ((TokenStream.within f.parameters).splitOnP (·.isPunct ",")).map TokenList.code

/-- The code declares a parameter of a type, with a name behind it or without one. Without a name,
the type does not end in a word that would do as one, unless it is the only word. Qualifiers are no
words here. -/
inductive Declares : List Token → List Token → Prop
  | named {type : List Token} {name : Token} (hname : isName name = true)
      (hword : 0 < (withoutQualifiers type).countP (·.kind == .word)) :
      Declares (type ++ [name]) type
  | unnamed {type : List Token}
      (hend : 2 ≤ (withoutQualifiers type).countP (·.kind == .word) →
        (withoutQualifiers type).getLast?.any isName = false) : Declares type type

/-- The parameters are the same but for their places, or have types that are written alike. -/
def SameParameter (first second : List Token) : Prop :=
  first.map Token.placeless = second.map Token.placeless ∨
    ∃ type other, Declares first type ∧ Declares second other ∧
      TokenList.texts type = TokenList.texts other

section Types

variable {code first second type : List Token} {name : Token} {f g : FunctionDecl}

theorem isQualifier_of_isName (h : isName name = true) : isQualifier name.text = false := by
  simp only [isName, isReserved, Bool.and_eq_true, Bool.not_eq_true', Bool.or_eq_false_iff] at h
  exact h.2.1.1.1.1

theorem kind_of_isName (h : isName name = true) : name.kind = .word := by
  simp only [isName, Token.isIdent, Bool.and_eq_true, beq_iff_eq] at h
  exact h.1.1

theorem withoutName_concat (hname : isName name = true)
    (hword : 0 < code.countP (·.kind == .word)) : withoutName (code ++ [name]) = code := by
  have hcount : 2 ≤ (code ++ [name]).countP (·.kind == .word) := by
    rw [List.countP_append, List.countP_singleton, kind_of_isName hname]
    exact Nat.succ_le_succ hword
  rw [withoutName, if_pos, List.dropLast_concat]
  rw [List.getLast?_concat, decide_eq_true hcount]
  exact hname

/-- Behind a type, the name is left out. -/
theorem typeText_of_declares (h : Declares code type) :
    typeText code = TokenList.shortRepr (withoutQualifiers type) := by
  cases h with
  | @named _ name hname hword =>
    have hbare : withoutQualifiers (type ++ [name]) = withoutQualifiers type ++ [name] := by
      simp [withoutQualifiers, isQualifier_of_isName hname]
    rw [typeText, hbare, withoutName_concat hname hword]
  | unnamed hend =>
    rw [typeText, withoutName, if_neg]
    simp only [Bool.and_eq_true, decide_eq_true_eq, not_and]
    intro hcount
    simp [hend hcount]

theorem texts_withoutQualifiers (tokens : List Token) : TokenList.texts (withoutQualifiers tokens) =
    (TokenList.texts tokens).filter fun text => !isQualifier text := by
  rw [TokenList.texts, TokenList.texts, List.filter_map]
  rfl

theorem typeText_map_placeless (code : List Token) :
    typeText (code.map Token.placeless) = typeText code := by
  have hbare : withoutQualifiers (code.map Token.placeless) =
      (withoutQualifiers code).map Token.placeless := by
    rw [withoutQualifiers, List.filter_map]
    rfl
  have hlast : ∀ bare : List Token, (bare.map Token.placeless).getLast?.any isName =
      bare.getLast?.any isName := by
    intro bare
    rw [List.getLast?_map, Option.any_map]
    rfl
  have hcount : ∀ bare : List Token, (bare.map Token.placeless).countP (·.kind == .word) =
      bare.countP (·.kind == .word) := by
    intro bare
    rw [List.countP_map]
    rfl
  have hname : ∀ bare : List Token, withoutName (bare.map Token.placeless) =
      (withoutName bare).map Token.placeless := by
    intro bare
    rw [withoutName, withoutName, hlast, hcount, ← List.map_dropLast]
    split <;> rfl
  rw [typeText, typeText, hbare, hname, TokenList.shortRepr, TokenList.shortRepr, TokenList.texts,
    List.map_map]
  rfl

theorem typeText_of_sameParameter (h : SameParameter first second) :
    typeText first = typeText second := by
  rcases h with hplace | ⟨type, other, hfirst, hsecond, htexts⟩
  · rw [← typeText_map_placeless first, hplace, typeText_map_placeless]
  · rw [typeText_of_declares hfirst, typeText_of_declares hsecond, TokenList.shortRepr,
      TokenList.shortRepr, texts_withoutQualifiers, texts_withoutQualifiers, htexts]

theorem map_typeText_congr {codes others : List (List Token)}
    (h : List.Forall₂ SameParameter codes others) : codes.map typeText = others.map typeText := by
  induction h with
  | nil => rfl
  | cons hfirst hrest ih =>
    rw [List.map_cons, List.map_cons, typeText_of_sameParameter hfirst, ih]

/-- Parameters without code do not show. -/
theorem filter_map_typeText (codes : List (List Token)) :
    (codes.map typeText).filter (· != "") =
      ((codes.filter (· ≠ [])).map typeText).filter (· != "") := by
  induction codes with
  | nil => rfl
  | cons code codes ih =>
    by_cases hcode : code = []
    · subst hcode
      have hnothing : typeText [] = "" := rfl
      simp [hnothing, ih]
    · simp only [List.map_cons, List.filter_cons, hcode, ih, ne_eq, not_false_eq_true,
        decide_true, if_true]

/-- The types in a signature are read off the parameters between the commas. -/
theorem signature_eq (h : Statement.CutAtCommas (TokenStream.within f.parameters)) :
    f.signature = if (f.parameterCodes.map typeText).filter (· != "") == ["void"] then []
      else (f.parameterCodes.map typeText).filter (· != "") := by
  have hstatements : (Statement.within f.parameters).map parameterType =
      ((Statement.within f.parameters).map fun s => TokenList.code s.tokens).map typeText := by
    rw [List.map_map]
    rfl
  have htypes : ((Statement.within f.parameters).map parameterType).filter (· != "") =
      (f.parameterCodes.map typeText).filter (· != "") := by
    rw [hstatements, filter_map_typeText, Statement.within, Statement.code_ofTokens h,
      ← filter_map_typeText, parameterCodes]
  rw [signature, htypes]

end Types

/-- Two sightings of a function have the same signature if their parameters differ in names only,
be it that a name is another one or left out. If they agree in the return type and the name and not
both have a body, they do not disagree about anything. -/
theorem signature_congr {f g : FunctionDecl}
    (hf : Statement.CutAtCommas (TokenStream.within f.parameters))
    (hg : Statement.CutAtCommas (TokenStream.within g.parameters))
    (hsame : List.Forall₂ SameParameter f.parameterCodes g.parameterCodes) :
    f.signature = g.signature ∧
      (TokenList.agrees f.typename g.typename = true → f.name.agrees g.name = true →
        f.bodiesDiffer g = false → f.conflicts g = []) := by
  have hsignature : f.signature = g.signature := by
    rw [signature_eq hf, signature_eq hg, map_typeText_congr hsame]
  refine ⟨hsignature, fun htype hname hbodies => ?_⟩
  simp [conflicts, hsignature, htype, hname, hbodies]

/-- A prototype and a definition. One name is left out, and one is another. -/
theorem prototype_agrees_with_definition :
    ∃ f g : FunctionDecl,
      ofTokens? defaultAnnotations
          (TokenStream.ofSource 0 "int f(const char *, struct T x);") = some f ∧
        ofTokens? defaultAnnotations
          (TokenStream.ofSource 0 "int f(const char *s, struct T y) \x7b return 0; \x7d") = some g ∧
        f.signature = g.signature ∧ f.conflicts g = [] := by
  let prototype : Token := ⟨3, ⟨6, 30⟩, .group .paren, "const char *, struct T x"⟩
  let definition : Token := ⟨3, ⟨6, 31⟩, .group .paren, "const char *s, struct T y"⟩
  have hread : ∃ f ∈ ofTokens? defaultAnnotations
        (TokenStream.ofSource 0 "int f(const char *, struct T x);"),
      ∃ g ∈ ofTokens? defaultAnnotations
        (TokenStream.ofSource 0 "int f(const char *s, struct T y) \x7b return 0; \x7d"),
      f.parameters = prototype ∧ g.parameters = definition ∧
        TokenList.agrees f.typename g.typename = true ∧ f.name.agrees g.name = true ∧
        f.bodiesDiffer g = false := by
    decide +kernel
  obtain ⟨f, hf, g, hg, hprototype, hdefinition, htype, hname, hbodies⟩ := hread
  have hcut : ∀ p ∈ [prototype, definition], Statement.CutAtCommas (TokenStream.within p) := by
    have hplain : ∀ p ∈ [prototype, definition], (∀ t ∈ TokenStream.within p,
          t.kind ≠ .directive ∧ t.isPunct ";" = false ∧ t.isGroup .brace = false) ∧
        ∀ part ∈ (TokenStream.within p).splitOnP (·.isPunct ","), ∀ t ∈ part,
          t.kind ≠ .newline := by
      decide +kernel
    exact fun p hp => Statement.cutAtCommas_of_oneLine (hplain p hp).1 (hplain p hp).2
  let word (index start stop : ℕ) (text : String) : Token := ⟨index, ⟨start, stop⟩, .word, text⟩
  let pointer : List Token :=
    [word 0 6 11 "const", word 2 12 16 "char", ⟨4, ⟨17, 18⟩, .punctuation, "*"⟩]
  have hprototypeCodes : f.parameterCodes =
      [pointer, [word 7 20 26 "struct", word 9 27 28 "T"] ++ [word 11 29 30 "x"]] := by
    rw [parameterCodes, hprototype]
    decide +kernel
  have hdefinitionCodes : g.parameterCodes = [pointer ++ [word 5 18 19 "s"],
      [word 8 21 27 "struct", word 10 28 29 "T"] ++ [word 12 30 31 "y"]] := by
    rw [parameterCodes, hdefinition]
    decide +kernel
  have hsame : List.Forall₂ SameParameter f.parameterCodes g.parameterCodes := by
    rw [hprototypeCodes, hdefinitionCodes]
    refine .cons (.inr ⟨_, _, .unnamed ?_, .named ?_ ?_, rfl⟩)
      (.cons (.inr ⟨_, _, .named ?_ ?_, .named ?_ ?_, rfl⟩) .nil)
    all_goals decide +kernel
  obtain ⟨hsignature, hconflicts⟩ := signature_congr (hprototype ▸ hcut prototype (by simp))
    (hdefinition ▸ hcut definition (by simp)) hsame
  exact ⟨f, g, hf, hg, hsignature, hconflicts htype hname hbodies⟩

/-- A record without a name behind it loses its tag, and the names of arrays and function pointers
stay. -/
theorem signatures_with_names :
    let read := fun text =>
      (ofTokens? defaultAnnotations (TokenStream.ofSource 0 text)).map signature
    read "int f(struct T);" = some ["struct"] ∧ read "int f(struct T x);" = some ["struct T"] ∧
      read "int f(int a[3]);" = some ["int a [3]"] ∧ read "int f(int b[3]);" = some ["int b [3]"] ∧
      read "int f(int (*a)(int));" = some ["int (*a) (int)"] ∧
      read "int f(int (*b)(int));" = some ["int (*b) (int)"] := by
  decide +kernel

end FunctionDecl

end CBoundary
