import CBoundary.SourceScan
import CBoundary.Proofs.AnnotatedStatement
import CBoundary.Proofs.DefinitionHead
import CBoundary.Proofs.SingleParameter
import CBoundary.Proofs.TokenCoverage

/-!
Annotation words in front of a function, each with a group of arguments. The words that a project
names are left out where a function is read off a statement, but where statements are cut and
classified only those are that every project has. So a word of the project's own is transparent in
front of a definition, and a prototype behind it is not recorded. Where the annotation is looked
past, the function behind it is recorded as it is without it, but for its place. Main statements:
`read_behind_annotation` and `own_word_hides_prototype`.
-/
namespace CBoundary

open Keyword CharacterClass TextPosition

/-- An annotation word and a parenthesized group with blanks behind each, as they stand in front of
a text. The group is balanced there: the comments and literals in it end before it does. -/
structure Annotation (behind : String) where
  word : String
  /-- The blanks between the word and the group. -/
  gap : String
  /-- What stands between the parentheses. -/
  inside : String
  /-- The blanks behind the group. -/
  space : String
  nonempty : word ≠ ""
  wordChars : ∀ c ∈ word.toList, isWordChar c = true
  gapBlank : ∀ c ∈ gap.toList, isBlank c = true
  spaceBlank : ∀ c ∈ space.toList, isBlank c = true
  balanced : Lexeme.group? .source .paren
    (inside.toList ++ ')' :: (space.toList ++ behind.toList)) = some (inside.toList.length + 2)

namespace Annotation

variable {behind : String} (a : Annotation behind)

/-- The annotation without the blanks behind it. -/
def call : String := a.word ++ a.gap ++ "(" ++ a.inside ++ ")"

/-- What stands in front of the text. -/
def text : String := a.call ++ a.space

theorem toList_call : a.call.toList =
    a.word.toList ++ (a.gap.toList ++ '(' :: (a.inside.toList ++ [')'])) := by
  simp [call, String.toList_append]

end Annotation

theorem TokenKind.isTrivia_of_blanks {kind : TokenKind} (h : kind = .blanks) :
    kind.isTrivia = true := by
  rw [h]
  rfl

/-- Space and comments in front, and what follows them. -/
theorem TokenList.exists_trivia (tokens : List Token) : ∃ lead body, tokens = lead ++ body ∧
    (∀ t ∈ lead, t.kind.isTrivia = true) ∧ ∀ t ∈ body.head?, t.kind.isTrivia = false := by
  refine ⟨tokens.takeWhile fun t => t.kind.isTrivia, tokens.dropWhile fun t => t.kind.isTrivia,
    List.takeWhile_append_dropWhile.symm, fun t ht => ?_, fun t ht => ?_⟩
  · exact List.mem_takeWhile_imp (p := fun t : Token => t.kind.isTrivia) ht
  · exact MacroDefinition.head?_dropWhile (p := fun t : Token => t.kind.isTrivia) ht

namespace TokenStream

open MacroDefinition

variable {mode : Lexeme.Mode} {c : Char} {rest behind : List Char}

theorem first_blank (hblank : isBlank c = true) (hrest : ∀ d ∈ rest, isBlank d = true)
    (hbehind : ∀ d ∈ behind.head?, isBlank d = false) :
    Lexeme.first mode c (rest ++ behind) = (.blanks, rest.length + 1) := by
  have hrun : Lexeme.first mode c (rest ++ behind) =
      (.blanks, 1 + ((rest ++ behind).takeWhile isBlank).length) := by
    simp only [isBlank, Bool.or_eq_true, beq_iff_eq] at hblank
    rcases hblank with (((rfl | rfl) | rfl) | rfl) | rfl <;> rfl
  rw [hrun, takeWhile_front hrest hbehind, Nat.add_comm]

/-- The blanks at the start of a text are one token, if there are any. -/
theorem exists_blanks (mode : Lexeme.Mode) (index offset : Nat) (text : List Char) :
    ∃ lead : List Token, (∀ t ∈ lead, t.kind = .blanks) ∧ lead.length ≤ 1 ∧
      ofChars mode index offset text = lead ++ ofChars mode (index + lead.length)
        (offset + byteLength (text.takeWhile isBlank)) (text.dropWhile isBlank) := by
  have hsplit := List.takeWhile_append_dropWhile (p := isBlank) (l := text)
  have hblank : ∀ d ∈ text.takeWhile isBlank, isBlank d = true := fun d hd =>
    List.mem_takeWhile_imp hd
  cases hrun : text.takeWhile isBlank with
  | nil =>
    rw [hrun, List.nil_append] at hsplit
    exact ⟨[], by simp, by simp, by simp [hsplit]⟩
  | cons c rest =>
    rw [hrun] at hsplit hblank
    refine ⟨[⟨index, ⟨offset, offset + byteLength (c :: rest)⟩, .blanks,
      String.ofList (c :: rest)⟩], by simp, by simp, ?_⟩
    conv => lhs; rw [← hsplit]
    exact ofChars_lexeme index offset (first_blank (hblank c List.mem_cons_self)
      (fun d hd => hblank d (List.mem_cons_of_mem c hd)) fun d hd => head?_dropWhile hd)

end TokenStream

namespace Annotation

variable {behind : String} (a : Annotation behind)

/-- The word of an annotation ends where its gap or its group starts. -/
theorem isWordChar_gap (later : List Char) {c : Char}
    (h : c ∈ (a.gap.toList ++ '(' :: later).head?) : isWordChar c = false := by
  cases hgap : a.gap.toList with
  | nil =>
    rw [hgap] at h
    obtain rfl : '(' = c := by simpa using h
    decide
  | cons d gap =>
    rw [hgap] at h
    obtain rfl : d = c := by simpa using h
    have hblank := a.gapBlank d (hgap ▸ List.mem_cons_self)
    cases hchar : isWordChar d with
    | false => rfl
    | true => simp [MacroExpansion.isBlank_of_isWordChar hchar] at hblank

theorem first_group :
    Lexeme.first .source '(' (a.inside.toList ++ [')'] ++ (a.space.toList ++ behind.toList)) =
      (.group .paren, (a.inside.toList ++ [')']).length + 1) := by
  have hbalanced := a.balanced
  simp only [Lexeme.first, Delim.ofOpener?]
  rw [List.append_assoc, List.singleton_append, hbalanced]
  simp

/-- The annotation is a word, perhaps blanks, and a group; what follows it is read behind. -/
theorem exists_front (base : Nat) : ∃ front word group index,
    AnnotationTokens front word group ∧ word.text = a.word ∧ 2 ≤ index ∧
    TokenStream.ofSource base (a.text ++ behind) = front ++
      TokenStream.ofChars .source index (base + byteLength a.call.toList)
        (a.space.toList ++ behind.toList) := by
  obtain ⟨c, rest, hword⟩ := List.exists_cons_of_ne_nil
    (fun h => a.nonempty (String.toList_eq_nil_iff.1 h) : a.word.toList ≠ [])
  have hchars := a.wordChars
  rw [hword] at hchars
  let paren := '(' :: (a.inside.toList ++ [')'])
  let later := a.space.toList ++ behind.toList
  have hgapEnd : ∀ d ∈ (paren ++ later).head?, isBlank d = false := by
    intro d hd
    obtain rfl : '(' = d := by simpa [paren] using hd
    rfl
  have hwordEnd : ∀ d ∈ (a.gap.toList ++ (paren ++ later)).head?, isWordChar d = false :=
    fun d hd => a.isWordChar_gap _ hd
  obtain ⟨gap, hgap, -, hblanks⟩ :=
    TokenStream.exists_blanks .source 1 (base + byteLength (c :: rest))
      (a.gap.toList ++ (paren ++ later))
  rw [MacroDefinition.takeWhile_front a.gapBlank hgapEnd,
    MacroDefinition.dropWhile_front a.gapBlank hgapEnd] at hblanks
  let word : Token := ⟨0, ⟨base, base + byteLength (c :: rest)⟩, .word, String.ofList (c :: rest)⟩
  let start := base + byteLength (c :: rest) + byteLength a.gap.toList
  let group : Token :=
    ⟨1 + gap.length, ⟨start, start + byteLength paren⟩, .group .paren, String.ofList paren⟩
  refine ⟨word :: (gap ++ [group]), word, group, 1 + gap.length + 1, ⟨⟨gap, rfl, hgap⟩, rfl, rfl⟩,
    ?_, by omega, ?_⟩
  · rw [← String.toList_inj, String.toList_ofList, hword]
  · have htext : (a.text ++ behind).toList =
        c :: rest ++ (a.gap.toList ++ (paren ++ later)) := by
      simp [text, String.toList_append, toList_call, hword, paren, later]
    have hbytes : base + byteLength a.call.toList = start + byteLength paren := by
      simp only [toList_call, hword, byteLength_append, start, paren]
      omega
    rw [TokenStream.ofSource, TokenStream.ofText, htext, hbytes,
      TokenStream.ofChars_lexeme 0 base (MacroExpansion.first_word hchars hwordEnd), Nat.zero_add,
      hblanks, TokenStream.ofChars_lexeme _ _ a.first_group]
    simp [word, group, start, paren]

/-- The tokens of a text behind an annotation are those of the text, but for the blanks in front of
it, at their new places. -/
theorem exists_tokens (base : Nat) : ∃ front trail lead body word group places,
    AnnotationTokens front word group ∧ word.text = a.word ∧
    (∀ t ∈ lead, t.kind = .blanks) ∧ (∀ t ∈ trail, t.kind = .blanks) ∧
    TokenStream.ofSource base behind = lead ++ body ∧
    TokenStream.ofSource base (a.text ++ behind) =
      front ++ trail ++ body.map (Token.moved places (byteLength a.text.toList)) := by
  obtain ⟨front, word, group, index, hfront, hword, hindex, htokens⟩ := a.exists_front base
  obtain ⟨lead, hlead, hone, hbehind⟩ :=
    TokenStream.exists_blanks .source 0 base behind.toList
  obtain ⟨trail, htrail, -, hspace⟩ := TokenStream.exists_blanks .source index
    (base + byteLength a.call.toList) (a.space.toList ++ behind.toList)
  rw [List.takeWhile_append_of_pos a.spaceBlank, List.dropWhile_append_of_pos a.spaceBlank]
    at hspace
  obtain ⟨places, hplaces⟩ : ∃ places, index + trail.length = 0 + lead.length + places :=
    ⟨index + trail.length - lead.length, by omega⟩
  have hbytes : base + byteLength a.call.toList +
        byteLength (a.space.toList ++ behind.toList.takeWhile isBlank) =
      base + byteLength (behind.toList.takeWhile isBlank) + byteLength a.text.toList := by
    simp only [text, String.toList_append, byteLength_append]
    omega
  refine ⟨front, trail, lead, _, word, group, places, hfront, hword, hlead, htrail, hbehind, ?_⟩
  rw [htokens, hspace, hplaces, hbytes, TokenStream.ofChars_add, List.append_assoc]

end Annotation

/-- The text starts with a prototype or the definition of a function, and nothing else in it is kept
in a symbol table. -/
structure DeclaresFunction (annotations : List String) (base : Nat) (text : String) (s : Statement)
    (f : FunctionDecl) : Prop where
  statements : ∃ rest, Statement.ofSource base text = s :: rest ∧
    ∀ u ∈ rest, u.kind.isUnrecorded = true
  isFunction : s.kind.isFunction = true
  reads : FunctionDecl.ofTokens? annotations s.tokens = some f

namespace SourceScan

variable {c : ScanContext} {scan : SourceScan} {statements others : List Statement} {s : Statement}

theorem readStatements_unrecorded (h : ∀ u ∈ statements, u.kind.isUnrecorded = true)
    (others : List Statement) : readStatements c TypeCarry.idle scan (statements ++ others) =
      readStatements c TypeCarry.idle scan others := by
  induction statements with
  | nil => rfl
  | cons u statements ih =>
    have hu := h u List.mem_cons_self
    have hbody : linkageBody? TypeCarry.idle u = none := by
      rw [linkageBody?, if_neg]
      cases hkind : u.kind <;> simp_all [StatementKind.isUnrecorded]
    have hread : readStatement c TypeCarry.idle scan u = (scan, TypeCarry.idle) := by
      unfold readStatement
      cases hkind : u.kind <;>
        simp_all [StatementKind.isUnrecorded, TypeCarry.isCarrying, TypeCarry.idle]
    rw [List.cons_append, readStatements]
    split
    · simp_all
    · rw [hread]
      exact ih fun v hv => h v (List.mem_cons_of_mem u hv)

theorem readStatements_function {f : FunctionDecl} (hfunction : s.kind.isFunction = true)
    (hf : FunctionDecl.ofTokens? c.config.annotations s.tokens = some f)
    (others : List Statement) : readStatements c TypeCarry.idle scan (s :: others) =
      readStatements c TypeCarry.idle (addFunction c scan f) others := by
  have hbody : linkageBody? TypeCarry.idle s = none := by
    rw [linkageBody?, if_neg]
    cases hkind : s.kind <;> simp_all [StatementKind.isFunction]
  have hread : readStatement c TypeCarry.idle scan s = (addFunction c scan f, TypeCarry.idle) := by
    unfold readStatement
    cases hkind : s.kind <;>
      simp_all [StatementKind.isFunction, TypeCarry.isCarrying, TypeCarry.idle]
  rw [readStatements]
  split
  · simp_all
  · rw [hread]

/-- A function is all that is added where nothing else is kept. -/
theorem readText_function {base : Nat} {text : String} {apart rest : List Statement}
    {f : FunctionDecl} (hs : Statement.ofSource base text = apart ++ s :: rest)
    (hapart : ∀ u ∈ apart, u.kind.isUnrecorded = true)
    (hrest : ∀ u ∈ rest, u.kind.isUnrecorded = true) (hfunction : s.kind.isFunction = true)
    (hf : FunctionDecl.ofTokens? c.config.annotations s.tokens = some f) :
    readText c base scan text = addFunction c scan f := by
  rw [readText, hs, readStatements_unrecorded hapart, readStatements_function hfunction hf,
    ← List.append_nil rest, readStatements_unrecorded hrest, readStatements]

end SourceScan

namespace FunctionDecl

theorem not_isWordAmong_of_mem {annotations : List String} {skipping : Bool} {tokens : List Token}
    {t : Token} (ht : t ∈ withoutAnnotations annotations skipping tokens) :
    isWordAmong annotations t = false := by
  fun_induction withoutAnnotations annotations skipping tokens with
  | case1 => simp at ht
  | case2 _ _ _ _ ih => exact ih ht
  | case3 _ _ _ _ _ ih => exact ih ht
  | case4 _ _ _ _ _ _ ih => exact ih ht
  | case5 skipping u rest _ _ hword ih =>
    rcases List.mem_cons.1 ht with rfl | ht
    · simpa using hword
    · exact ih ht

/-- An annotation word is never the name of a function. -/
theorem name_not_mem {annotations : List String} {tokens : List Token} {f : FunctionDecl}
    (hf : ofTokens? annotations tokens = some f) : f.name.text ∉ annotations := by
  simp only [ofTokens?, Option.bind_eq_bind, Option.bind_eq_some_iff, Option.pure_def,
    Option.some.injEq, Option.filter_eq_some_iff] at hf
  obtain ⟨parameters, -, name, ⟨hlast, hname⟩, rfl⟩ := hf
  have hmem := (List.mem_filter.1 (List.mem_of_getLast? hlast)).1
  have hother := not_isWordAmong_of_mem
    (List.mem_of_mem_drop ((List.takeWhile_prefix _).subset hmem))
  intro hword
  simp [isWordAmong, kind_of_isName hname, hword] at hother

end FunctionDecl

namespace DeclaresFunction

variable {annotations : List String} {base : Nat} {text : String} {s : Statement}
  {f : FunctionDecl}

/-- The statements of the text behind an annotation: perhaps the annotation alone, then the function
with the same parts, then what followed it before. -/
theorem exists_annotated (h : DeclaresFunction annotations base text s f) (a : Annotation text)
    (hword : a.word ∈ annotations) (hpast : LookedPast a.word s.kind) :
    ∃ apart annotated rest g places,
      Statement.ofSource base (a.text ++ text) = apart ++ annotated :: rest ∧
      (∀ u ∈ apart, u.kind.isUnrecorded = true) ∧ (∀ u ∈ rest, u.kind.isUnrecorded = true) ∧
      annotated.kind = s.kind ∧ FunctionDecl.ofTokens? annotations annotated.tokens = some g ∧
      g.parts = f.parts.moved places (byteLength a.text.toList) := by
  obtain ⟨rest, hs, hrest⟩ := h.statements
  obtain ⟨front, trail, lead, body, word, group, places, hfront, hsame, hlead, htrail, htokens,
    hannotated⟩ := a.exists_tokens base
  obtain ⟨trivia, code, rfl, htrivia, hcode⟩ := TokenList.exists_trivia body
  let move := Token.moved places (byteLength a.text.toList)
  have hleading : ∀ t ∈ (lead ++ trivia).map move, t.kind.isTrivia = true := by
    simpa [move, or_imp, forall_and] using
      ⟨fun t ht => TokenKind.isTrivia_of_blanks (hlead t ht), htrivia⟩
  have htrailing : ∀ t ∈ trail ++ trivia.map move, t.kind.isTrivia = true := by
    simpa [move, or_imp, forall_and] using
      ⟨fun t ht => TokenKind.isTrivia_of_blanks (htrail t ht), htrivia⟩
  have hfirst : ∀ t ∈ (code.map move).head?, t.kind.isTrivia = false := by
    simpa [move] using hcode
  have hmoved : Statement.ofTokens ((lead ++ trivia).map move ++ code.map move) =
      s.moved places (byteLength a.text.toList) ::
        rest.map (Statement.moved places (byteLength a.text.toList)) := by
    rw [← List.map_append, List.append_assoc, ← htokens, Statement.ofTokens_map_moved,
      ← List.map_cons, ← hs]
    rfl
  obtain ⟨apart, annotated, hstatements, hapart, hkind, hparts⟩ :=
    hfront.exists_ofTokens hleading htrailing hfirst hmoved
      (by rwa [hsame, Statement.kind_moved]) (by rw [Statement.kind_moved]; exact h.isFunction)
  have hstop : ∀ t ∈ s.tokens, 0 < t.span.stop := by
    intro t ht
    have hmem : t ∈ TokenStream.ofSource base text :=
      Statement.mem_of_mem_ofTokens (by rw [← Statement.ofSource, hs]; exact List.mem_cons_self) ht
    exact Nat.zero_lt_of_lt ((TokenCoverage.ofText_partition .source base text).nonempty t hmem)
  have hread := hparts annotations (by simp [isWordAmong, hfront.word, hsame, hword])
  rw [Statement.moved, FunctionDecl.map_parts_ofTokens?_moved annotations hstop, h.reads] at hread
  obtain ⟨g, hg, hgparts⟩ := Option.map_eq_some_iff.1 hread
  refine ⟨apart, annotated, rest.map (Statement.moved places (byteLength a.text.toList)), g, places,
    ?_, hapart, ?_, ?_, hg, hgparts⟩
  · rw [Statement.ofSource, hannotated, List.map_append, ← List.append_assoc, ← hstatements,
      List.append_assoc front]
  · simpa using hrest
  · rw [hkind, Statement.kind_moved]

/-- An annotation that is looked past is transparent. The same function is read behind it as without
it, with the same return type, parameters and body at their new places, and nothing else; it is not
the annotation word that is taken for its name. -/
theorem read_behind_annotation (config : ModuleConfig)
    (h : DeclaresFunction config.annotations base text s f) (a : Annotation text)
    (hword : a.word ∈ config.annotations) (hpast : LookedPast a.word s.kind) :
    ∃ g : FunctionDecl,
      (∀ scope scan,
        SourceScan.readText ⟨scope, config⟩ base scan text =
          SourceScan.addFunction ⟨scope, config⟩ scan f ∧
        SourceScan.readText ⟨scope, config⟩ base scan (a.text ++ text) =
          SourceScan.addFunction ⟨scope, config⟩ scan g) ∧
      (∃ places, g.parts = f.parts.moved places (byteLength a.text.toList)) ∧
      g.signature = f.signature ∧ g.name.text ≠ a.word := by
  obtain ⟨apart, annotated, rest, g, places, hstatements, hapart, hrest, hkind, hg, hparts⟩ :=
    h.exists_annotated a hword hpast
  refine ⟨g, fun scope scan => ⟨?_, ?_⟩, ⟨places, hparts⟩, ?_, ?_⟩
  · obtain ⟨later, hs, hlater⟩ := h.statements
    have hnone : ∀ u ∈ ([] : List Statement), u.kind.isUnrecorded = true := by simp
    exact SourceScan.readText_function (by rw [hs, List.nil_append]) hnone hlater h.isFunction
      h.reads
  · exact SourceScan.readText_function hstatements hapart hrest (by rw [hkind]; exact h.isFunction)
      hg
  · exact FunctionDecl.signature_moved (congrArg FunctionDecl.Parts.parameters hparts)
  · intro hname
    exact FunctionDecl.name_not_mem hg (hname ▸ hword)

/-- A project whose only annotation word is a name of its own. -/
def ownAnnotation : ModuleConfig := { ModuleConfig.standard ⟨"/"⟩ with annotations := ["MY_API"] }

/-- The word of the project in front of a definition. -/
theorem own_word_before_definition :
    ∃ f g : FunctionDecl, TokenList.texts f.typename = ["int"] ∧ f.name.text = "f" ∧
      f.signature = ["int"] ∧ f.body.map Token.text = some " return a; " ∧
      (∀ scope scan,
        SourceScan.readText ⟨scope, ownAnnotation⟩ 0 scan "int f(int a) \x7b return a; \x7d" =
          SourceScan.addFunction ⟨scope, ownAnnotation⟩ scan f ∧
        SourceScan.readText ⟨scope, ownAnnotation⟩ 0 scan
            "MY_API (x) int f(int a) \x7b return a; \x7d" =
          SourceScan.addFunction ⟨scope, ownAnnotation⟩ scan g) ∧
      (∃ places, g.parts = f.parts.moved places (byteLength "MY_API (x) ".toList)) ∧
      g.signature = ["int"] ∧ g.name.text ≠ "MY_API" := by
  let text := "int f(int a) \x7b return a; \x7d"
  have hread : ∃ s ∈ Statement.ofSource 0 text, Statement.ofSource 0 text = [s] ∧
      s.kind = .function ∧ ∃ f ∈ (FunctionDecl.ofTokens? ["MY_API"] s.tokens).toList,
        TokenList.texts f.typename = ["int"] ∧ f.name.text = "f" ∧ f.signature = ["int"] ∧
        f.body.map Token.text = some " return a; " := by
    decide +kernel
  obtain ⟨s, -, hs, hkind, f, hf, htypename, hname, hsignature, hbody⟩ := hread
  have h : DeclaresFunction ownAnnotation.annotations 0 text s f :=
    ⟨⟨[], hs, by simp⟩, by rw [hkind]; rfl, Option.mem_toList.1 hf⟩
  let a : Annotation text :=
    { word := "MY_API", gap := " ", inside := "x", space := " "
      nonempty := by decide
      wordChars := List.all_eq_true.1 (by decide +kernel)
      gapBlank := List.all_eq_true.1 (by decide +kernel)
      spaceBlank := List.all_eq_true.1 (by decide +kernel)
      balanced := by decide +kernel }
  have hpast : LookedPast a.word s.kind := by
    rw [hkind]
    exact Or.inr ⟨by decide +kernel, by decide +kernel, rfl⟩
  obtain ⟨g, hscan, hparts, htypes, hother⟩ :=
    h.read_behind_annotation ownAnnotation a (by decide) hpast
  exact ⟨f, g, htypename, hname, hsignature, hbody, hscan, hparts, htypes.trans hsignature, hother⟩

/-- The same word in front of a prototype: the prototype is not recorded, although it is on its
own. -/
theorem own_word_hides_prototype :
    (∃ f : FunctionDecl, f.name.text = "f" ∧ ∀ scope scan,
      SourceScan.readText ⟨scope, ownAnnotation⟩ 0 scan "int f(void);" =
        SourceScan.addFunction ⟨scope, ownAnnotation⟩ scan f) ∧
    ∀ scope scan, SourceScan.readText ⟨scope, ownAnnotation⟩ 0 scan "MY_API (x) int f(void);" =
      scan := by
  have halone : ∃ s ∈ Statement.ofSource 0 "int f(void);",
      Statement.ofSource 0 "int f(void);" = [s] ∧ s.kind.isFunction = true ∧
      ∃ f ∈ (FunctionDecl.ofTokens? ["MY_API"] s.tokens).toList, f.name.text = "f" := by
    decide +kernel
  have hbehind : ∀ u ∈ Statement.ofSource 0 "MY_API (x) int f(void);",
      u.kind.isUnrecorded = true := by
    decide +kernel
  have hnone : ∀ u ∈ ([] : List Statement), u.kind.isUnrecorded = true := by simp
  obtain ⟨s, -, hs, hfunction, f, hf, hname⟩ := halone
  refine ⟨⟨f, hname, fun scope scan => ?_⟩, fun scope scan => ?_⟩
  · exact SourceScan.readText_function (by rw [hs, List.nil_append]) hnone hnone hfunction
      (Option.mem_toList.1 hf)
  · rw [SourceScan.readText, ← List.append_nil (Statement.ofSource _ _),
      SourceScan.readStatements_unrecorded hbehind, SourceScan.readStatements]

end DeclaresFunction

end CBoundary
