import CBoundary.Proofs.DeclaratorList
import CBoundary.Proofs.Recognition
import Mathlib.Data.List.Basic

/-!
Records with their bodies in front of a list of declarators. The brace group is taken for the body
of a record wherever it is looked for, so it does not end the statement, and the first declarator is
read with the record. The declarators behind the first comma are statements of their own, in which
nothing of the record is left. Main statements: `kind_eq_record`, `exists_header?` and
`exists_statements`.
-/
namespace CBoundary

open Keyword TokenList

/-- A record with its body as it stands in front of declarators, space and comments left out. No
annotation words stand in it. -/
structure RecordHead where
  /-- Qualifiers and storage classes, among them the typedef word. -/
  lead : List Token
  word : Token
  tag : Option Token
  body : Token
  lead_qualifiers : ∀ t ∈ lead, isWordAmong qualifiers t = true
  lead_plain : ∀ t ∈ lead, isWordAmong defaultAnnotations t = false
  word_isRecordWord : isWordAmong recordWords word = true
  tag_isName : ∀ t ∈ tag, isName t = true
  tag_plain : ∀ t ∈ tag, isWordAmong defaultAnnotations t = false
  body_isBrace : body.isGroup .brace = true

namespace Classification

theorem withoutAnnotations_eq_self {annotations : List String} {tokens : List Token}
    (h : ∀ t ∈ tokens, isWordAmong annotations t = false) :
    withoutAnnotations annotations tokens = tokens := by
  induction tokens with
  | nil => rfl
  | cons t rest ih =>
    obtain ⟨hfirst, hrest⟩ := List.forall_mem_cons.1 h
    rw [withoutAnnotations_cons, hfirst, ih hrest]
    rfl

end Classification

namespace RecordHead

variable (h : RecordHead)

/-- The type that the record is, as the declarators have it. -/
def type : List Token := h.word :: h.tag.toList

/-- What stands in front of the body. -/
def front : List Token := h.lead ++ h.type

def written : List Token := h.front ++ [h.body]

def isTypedef : Bool := h.lead.any (·.isWord "typedef")

/-- The name that identifies a typedef record: its tag, or else the first name it is bound to. -/
def boundName (d : Declarator) : Token := h.tag.getD d.name

theorem isTypeWord_of_mem_front : ∀ t ∈ h.front, t.IsTypeWord := by
  intro t ht
  simp only [front, type, List.mem_append, List.mem_cons, Option.mem_toList] at ht
  rcases ht with ht | rfl | ht
  · exact isTypeWord_of_isWordAmong (h.lead_qualifiers t ht)
  · refine ⟨Token.kind_of_isWordAmong h.word_isRecordWord, ?_⟩
    have hcontrol : isWordAmong controlWords h.word = false :=
      isWordAmong_of_disjoint (by decide) h.word_isRecordWord
    simpa [isWordAmong, Token.kind_of_isWordAmong h.word_isRecordWord, isControlWord] using hcontrol
  · exact isTypeWord_of_isName (h.tag_isName t ht)

theorem plain_of_mem_front : ∀ t ∈ h.front, isWordAmong defaultAnnotations t = false := by
  intro t ht
  simp only [front, type, List.mem_append, List.mem_cons, Option.mem_toList] at ht
  rcases ht with ht | rfl | ht
  · exact h.lead_plain t ht
  · exact isWordAmong_of_disjoint (by decide) h.word_isRecordWord
  · exact h.tag_plain t ht

theorem code_written (rest : List Token) : code (h.written ++ rest) = h.written ++ code rest := by
  have hfront : code h.front = h.front :=
    Statement.code_of_isHead fun t ht => Or.inl (h.isTypeWord_of_mem_front t ht)
  rw [written, List.append_assoc, code_append, hfront, List.singleton_append,
    code_cons_of_isCode _ (Token.isCode_of_isGroup h.body_isBrace), List.append_assoc]
  rfl

theorem withoutAnnotations_written (rest : List Token) :
    Classification.withoutAnnotations defaultAnnotations (h.written ++ rest) =
      h.written ++ Classification.withoutAnnotations defaultAnnotations rest := by
  have hkind := Token.kind_of_isGroup h.body_isBrace
  rw [written, List.append_assoc, List.singleton_append,
    (Classification.withoutAnnotations_append_cons _ (by simp [isWordAmong, hkind])
      (by simp [Token.isGroup, hkind]) _ _).1,
    Classification.withoutAnnotations_eq_self h.plain_of_mem_front, List.append_assoc]
  rfl

theorem afterRecordBody?_written (rest : List Token) :
    Classification.afterRecordBody? (h.written ++ rest) = some rest := by
  have hword : isWordAmong qualifiers h.word = false :=
    isWordAmong_of_disjoint (by decide) h.word_isRecordWord
  have hbody : h.body.isIdent = false := by
    simp [Token.isIdent, Token.kind_of_isGroup h.body_isBrace]
  have hdrop : (h.written ++ rest).dropWhile (isWordAmong qualifiers) =
      h.word :: (h.tag.toList ++ h.body :: rest) := by
    rw [written, front, type, List.append_assoc, List.append_assoc,
      List.dropWhile_append_of_pos h.lead_qualifiers]
    simp [hword]
  rw [Classification.afterRecordBody?, hdrop]
  cases htag : h.tag with
  | none => simp [h.word_isRecordWord, h.body_isBrace, hbody]
  | some tag =>
    have hident : tag.isIdent = true := (Bool.and_eq_true_iff.1 (h.tag_isName tag htag)).1
    simp [h.word_isRecordWord, h.body_isBrace, hident]

/-- The body does not end the statement. -/
theorem closesStatement_written : Statement.closesStatement h.written = false := by
  have hcode : Classification.withoutAnnotations defaultAnnotations (code h.written) =
      h.written := by
    have hall := h.code_written []
    have hbare := h.withoutAnnotations_written []
    rw [show code [] = [] from rfl, List.append_nil] at hall
    rw [Classification.withoutAnnotations, List.append_nil] at hbare
    rw [hall, hbare]
  have hbody : Classification.afterRecordBody? h.written = some [] := by
    simpa using h.afterRecordBody?_written []
  have hhead : ∀ t ∈ h.front, t.IsHead := fun t ht => Or.inl (h.isTypeWord_of_mem_front t ht)
  obtain ⟨start, others, hfront⟩ : ∃ start others, h.front = start :: others :=
    List.exists_cons_of_ne_nil (by simp [front, type])
  rw [written, hfront] at hcode hbody
  rw [hfront] at hhead
  have hstring : others.head?.any (·.kind == .stringLiteral) = false := by
    cases others with
    | nil => rfl
    | cons second others => simpa using (hhead second (by simp)).kind_ne_stringLiteral
  rw [written, hfront]
  exact Statement.closesStatement_eq_false hcode (by rw [hstring, Bool.and_false])
    (hhead start List.mem_cons_self).not_isWord_else (Or.inr (Or.inl (by rw [hbody]; rfl)))

variable {h}

/-- A statement goes on over the record and a declarator without an initializer or a bit width. -/
theorem staysOpen {d : Declarator} (hd : d.ending = []) :
    Statement.StaysOpen (h.written ++ d.written) := by
  have hhead : ∀ t ∈ h.front ++ d.written, t.IsHead := by
    intro t ht
    rcases List.mem_append.1 ht with ht | ht
    · exact Or.inl (h.isTypeWord_of_mem_front t ht)
    · exact Declarator.isHead_of_mem_written hd t ht
  have hother : ∀ t ∈ h.written ++ d.written, t = h.body ∨ t.IsHead := by
    intro t ht
    simp only [written, List.append_assoc, List.singleton_append, List.mem_append,
      List.mem_cons] at ht
    rcases ht with ht | rfl | ht
    · exact Or.inr (hhead t (by simp [ht]))
    · exact Or.inl rfl
    · exact Or.inr (hhead t (by simp [ht]))
  have hbodyKind := Token.kind_of_isGroup h.body_isBrace
  refine ⟨?_, ?_, ?_⟩
  · intro t ht
    rcases hother t ht with rfl | ht
    · simp [hbodyKind, Token.isSeparator, Token.isPunct]
    · exact ht.plain
  · intro lead t later hsplit hbrace
    have hnone : ∀ u : Token, u.IsHead → u ≠ t := by
      rintro u hu rfl
      simp [hu.isGroup.2] at hbrace
    rw [written, List.append_assoc, List.singleton_append, List.append_cons_inj_of_notMem
      (fun ht => hnone t (hhead t (by simp [ht])) rfl)
      (fun ht => hnone t (hhead t (by simp [ht])) rfl)] at hsplit
    obtain ⟨rfl, rfl, -⟩ := hsplit
    exact h.closesStatement_written
  · intro lead later hsplit
    refine Statement.isBareCall_of_no_paren fun t ht => ?_
    rcases hother t (hsplit ▸ List.mem_append_left later ht) with rfl | ht
    · simp [Token.isGroup, hbodyKind]
    · exact ht.isGroup.1

end RecordHead

theorem Classification.classifyDeclaration_ne_directive (code : List Token) :
    classifyDeclaration code ≠ .directive := by
  unfold classifyDeclaration
  split
  · split <;> simp
  · dsimp only
    split
    · split <;> simp
    · split
      · simp
      · split
        · simp
        · split <;> simp

theorem Classification.classifyCode_ne_directive (code : List Token) :
    classifyCode code ≠ .directive := by
  unfold classifyCode
  split
  · simp
  · split
    · simp
    · split
      · simp
      · dsimp only
        split
        · simp
        · split
          · simp
          · exact classifyDeclaration_ne_directive _

/-- A statement that does not start with a directive is classified by its code. -/
theorem Statement.kind_eq_classifyCode {s : Statement}
    (h : ∀ t ∈ (withoutTrivia s.tokens).head?, t.kind ≠ .directive) :
    s.kind = Classification.classifyCode s.bareCode := by
  have hfirst : (s.tokens.find? fun t => !t.kind.isTrivia).any (·.kind == .directive) = false := by
    rw [withoutTrivia, List.head?_filter] at h
    cases hfind : s.tokens.find? fun t => !t.kind.isTrivia with
    | none => rfl
    | some t => simpa using h t hfind
  rw [kind, Classification.classify, if_neg (by simp [hfirst])]
  rfl

namespace RecordHead

variable {h : RecordHead} {d : Declarator} {separator : Token} {s : Statement}
  {rest tokens : List Token}

theorem exists_classifyCode (h : RecordHead) (rest : List Token) :
    ∃ isTypedef declares, Classification.classifyCode (h.written ++ rest) =
      .record isTypedef declares ∧ (h.isTypedef = true → isTypedef = true) := by
  have hbody := h.afterRecordBody?_written rest
  have hwritten : h.written ++ rest = h.front ++ h.body :: rest := by simp [written]
  have htypedef : h.isTypedef = true → (h.written ++ rest).any (·.isWord "typedef") = true := by
    intro htypedef
    rw [hwritten, front, List.append_assoc, List.any_append, ← isTypedef, htypedef, Bool.true_or]
  rw [hwritten] at hbody htypedef ⊢
  cases hfront : h.front with
  | nil => simp [front, type] at hfront
  | cons start others =>
    have hhead : ∀ t ∈ start :: others, t.IsHead := fun t ht =>
      Or.inl (h.isTypeWord_of_mem_front t (hfront ▸ ht))
    have hstring : (others ++ h.body :: rest).head?.any (·.kind == .stringLiteral) = false := by
      cases others with
      | nil => simp [Token.kind_of_isGroup h.body_isBrace]
      | cons second others => simpa using (hhead second (by simp)).kind_ne_stringLiteral
    have hcontrol : isWordAmong controlWords start = false := by
      have hword : controlWords.contains start.text = false :=
        (h.isTypeWord_of_mem_front start (by simp [hfront])).2
      rw [isWordAmong, hword, Bool.and_false]
    rw [hfront, List.cons_append] at hbody htypedef
    rw [List.cons_append, Classification.classifyCode, hstring, Bool.and_false, Bool.false_and,
      if_neg (by simp), if_neg (by simp [hcontrol])]
    simp only [hbody]
    exact ⟨_, _, rfl, htypedef⟩

/-- A statement with a record in front is classified as a record, and as a typedef if it is one. -/
theorem exists_kind (hs : withoutTrivia s.tokens = h.written ++ rest) :
    ∃ isTypedef declares, s.kind = .record isTypedef declares ∧
      (h.isTypedef = true → isTypedef = true) := by
  have hbare : s.bareCode =
      h.written ++ Classification.withoutAnnotations defaultAnnotations (code rest) := by
    rw [Statement.bareCode, ← code_withoutTrivia, hs, code_written, withoutAnnotations_written]
  obtain ⟨start, others, hfront⟩ : ∃ start others, h.front = start :: others :=
    List.exists_cons_of_ne_nil (by simp [front, type])
  have hstart : start.kind ≠ .directive := by
    simp [(h.isTypeWord_of_mem_front start (by simp [hfront])).1]
  have hfirst : (withoutTrivia s.tokens).head? = some start := by
    rw [hs, written, hfront]
    rfl
  rw [Statement.kind_eq_classifyCode (by simpa [hfirst] using hstart), hbare]
  exact h.exists_classifyCode _

/-- A declarator without an initializer or a bit width is no record. -/
theorem not_isRecord (hd : d.ending = []) (hseparator : separator.isSeparator = true)
    (hs : withoutTrivia s.tokens = d.written ++ [separator]) : s.kind.isRecord = false := by
  cases hrecord : s.kind.isRecord with
  | false => rfl
  | true =>
    rw [Statement.kind_of_isFunction_or_isRecord (Or.inr hrecord)] at hrecord
    obtain ⟨behind, hbody⟩ := Classification.afterRecordBody?_of_isRecord hrecord
    obtain ⟨lead, word, body, hform⟩ := Classification.exists_isRecord hbody
    have hmem : body ∈ code s.tokens :=
      Classification.Leaves.subset (Or.inl hform.split) (by simp)
    rw [← code_withoutTrivia, hs] at hmem
    rcases List.mem_append.1 (List.mem_filter.1 hmem).1 with hmem | hmem
    · have hbrace := hform.body
      simp [(Declarator.isHead_of_mem_written hd body hmem).isGroup.2] at hbrace
    · rw [List.mem_singleton.1 hmem] at hform
      have hbrace := hform.body
      simp [Token.isGroup, Statement.kind_of_isSeparator hseparator] at hbrace

/-- The record with its first declarator and the declarators behind it are statements of their
own. -/
theorem exists_statements {l : DeclaratorList} {behind : List Token}
    (hending : ∀ entry ∈ l.entries, entry.1.ending = [])
    (hs : withoutTrivia tokens = h.written ++ l.written ++ behind) :
    ∃ statements rest, Statement.ofTokens tokens = statements ++ Statement.ofTokens rest ∧
      l.Spelled h.written statements ∧ withoutTrivia rest = behind := by
  obtain ⟨separator, hfirst⟩ := l.exists_first_mem
  refine DeclaratorList.exists_spelled (staysOpen (hending _ hfirst)) ?_ hs
  intro entry hentry
  exact Declarator.widthStaysOpen_of_no_brace (by simp [hending entry hentry])

/-- What the first declarator declares: its stars are not read. -/
def toVariable (h : RecordHead) (d : Declarator) (separator : Token) : Variable where
  typename := h.type
  name := d.name
  preComment := none
  postComment := none
  terminator := separator.text

/-- Behind a record word, the name is what identifies the type. -/
theorem baseType_record {word : Token} {name : Option Token}
    (hword : isWordAmong recordWords word = true) (hname : ∀ t ∈ name, isName t = true) :
    baseType (word :: name.toList) = (name.map Token.text).getD "" := by
  have hrecord : isRecordWord word.text = true := (Bool.and_eq_true_iff.1 hword).2
  have hcode := Token.isCode_of_kind_word (Token.kind_of_isWordAmong hword)
  cases name with
  | none =>
    rw [Option.toList_none, baseType, code_cons_of_isCode _ hcode]
    simp [code, hrecord]
  | some name =>
    have hname := hname name rfl
    have hother := Token.isCode_of_kind_word (isTypeWord_of_isName hname).1
    simp only [isName, isReserved, Bool.and_eq_true, Bool.not_eq_true',
      Bool.or_eq_false_iff] at hname
    rw [Option.toList_some, baseType, code_cons_of_isCode _ hcode, code_cons_of_isCode _ hother]
    simp [code, hname.1, hname.2.1.1.1.1, hname.2.1.1.1.2]

/-- The record is read as it is written, with the first declarator. -/
structure Reads (h : RecordHead) (d : Declarator) (separator : Token) (r : Record) : Prop where
  kind : r.kind = h.word
  name : r.name = h.tag.or (if h.isTypedef then some d.name else none)
  body : h.body.interior? = some r.body
  typedefs : r.typedefs.map Variable.uncommented =
    if h.isTypedef then [h.toVariable d separator] else []
  declared : r.declared.map Variable.uncommented =
    if h.isTypedef then [] else [h.toVariable d separator]

theorem isSkippable_of_isName {t : Token} (hname : isName t = true)
    (hplain : isWordAmong defaultAnnotations t = false) : Record.isSkippable t = false := by
  have hgroup : t.isGroup .paren = false :=
    Token.isGroup_of_kind_word (isTypeWord_of_isName hname).1
  have hqualifier : isWordAmong qualifiers t = false := by
    simp only [isName, isReserved, isQualifier, Bool.and_eq_true, Bool.not_eq_true',
      Bool.or_eq_false_iff] at hname
    rw [isWordAmong, hname.2.1.1.1.1, Bool.and_false]
  rw [Record.isSkippable, hgroup, hqualifier, hplain]
  rfl

theorem readKind?_front (h : RecordHead) (rest : List Token) :
    Record.readKind? false (h.lead ++ h.word :: rest) = some (h.isTypedef, h.word, rest) := by
  have hgeneral (flag : Bool) (lead : List Token)
      (hlead : ∀ t ∈ lead, isWordAmong qualifiers t = true) :
      Record.readKind? flag (lead ++ h.word :: rest) =
        some (flag || lead.any (·.isWord "typedef"), h.word, rest) := by
    induction lead generalizing flag with
    | nil =>
      have htypedef : isWordAmong ["typedef"] h.word = false :=
        isWordAmong_of_disjoint (by decide) h.word_isRecordWord
      rw [List.nil_append, Record.readKind?, Token.isWord_eq_isWordAmong,
        if_neg (by simp [htypedef]), if_pos h.word_isRecordWord]
      simp
    | cons t lead ih =>
      obtain ⟨hfirst, hrest⟩ := List.forall_mem_cons.1 hlead
      have hword : isWordAmong recordWords t = false := isWordAmong_of_disjoint (by decide) hfirst
      have hskip : Record.isSkippable t = true := by simp [Record.isSkippable, hfirst]
      rw [List.cons_append, Record.readKind?, List.any_cons]
      cases htypedef : t.isWord "typedef" with
      | true => rw [if_pos rfl, ih true hrest]; simp
      | false => rw [if_neg (by simp), if_neg (by simp [hword]), if_pos hskip, ih flag hrest]; simp
  exact (hgeneral false h.lead h.lead_qualifiers).trans (by rw [Bool.false_or]; rfl)

theorem readBody?_front (h : RecordHead) {inner : Token} (hinner : h.body.interior? = some inner)
    (rest : List Token) :
    Record.readBody? none (h.tag.toList ++ h.body :: rest) = some (h.tag, inner, rest) := by
  have hbody (found : Option Token) :
      Record.readBody? found (h.body :: rest) = some (found, inner, rest) := by
    rw [Record.readBody?, if_pos h.body_isBrace, hinner, Option.map_some]
  cases htag : h.tag with
  | none => exact hbody none
  | some tag =>
    have hname := h.tag_isName tag htag
    have hword := (isTypeWord_of_isName hname).1
    have hskip := isSkippable_of_isName hname (h.tag_plain tag htag)
    rw [Option.toList_some, List.singleton_append, Record.readBody?,
      if_neg (by simp [Token.isGroup, hword]), if_neg (by simp [hskip]), if_neg (by simp [hname]),
      hbody]

/-- The names among the tokens of a declarator without an initializer or a bit width. -/
theorem filter_names (hd : d.ending = []) (hname : isWordAmong defaultAnnotations d.name = false)
    (hseparator : separator.isSeparator = true) :
    (code (d.written ++ [separator])).filter (fun t => isName t && !Record.isSkippable t) =
      [d.name] := by
  have hnone {tokens : List Token} (h : ∀ t ∈ tokens, isName t = false) :
      (code tokens).filter (fun t => isName t && !Record.isSkippable t) = [] := by
    rw [List.filter_eq_nil_iff]
    intro t ht
    simp [h t (List.mem_filter.1 ht).1]
  have hstars : ∀ t ∈ d.stars, isName t = false := by
    intro t ht
    rcases d.stars_or_qualifiers t ht with hstar | hqualifier
    · simp only [Token.isPunct, Bool.and_eq_true, beq_iff_eq] at hstar
      simp [isName, Token.isIdent, hstar]
    · simp only [isWordAmong, Bool.and_eq_true] at hqualifier
      have hreserved : isReserved t.text = true := by
        simp only [isReserved, isQualifier, hqualifier.2, Bool.true_or]
      simp [isName, hreserved]
  have hothers : ∀ t ∈ d.bounds ++ [separator], isName t = false := by
    intro t ht
    have hkind : t.kind ≠ .word := by
      rcases List.mem_append.1 ht with ht | ht
      · simp [Token.kind_of_isGroup (d.bounds_brackets t ht)]
      · simp [List.mem_singleton.1 ht, Statement.kind_of_isSeparator hseparator]
    simp [isName, Token.isIdent, hkind]
  have hskip := isSkippable_of_isName d.name_isName hname
  have hcode : code (d.written ++ [separator]) =
      code d.stars ++ d.name :: code (d.bounds ++ [separator]) := by
    rw [← code_cons_of_isCode _ (Token.isCode_of_kind_word (isTypeWord_of_isName d.name_isName).1),
      ← code_append]
    simp [Declarator.written, hd]
  rw [hcode, List.filter_append, hnone hstars,
    List.filter_cons_of_pos (by simp [d.name_isName, hskip]), hnone hothers, List.nil_append]

/-- The record is read with its first declarator, unless that is an annotation word. -/
theorem exists_header? (parent : Option String) (ht : ∀ t ∈ tokens, t.Bracketed)
    (hd : d.ending = []) (hname : isWordAmong defaultAnnotations d.name = false)
    (hseparator : separator.isSeparator = true)
    (hs : withoutTrivia tokens = h.written ++ d.written ++ [separator]) :
    ∃ r, Record.header? parent tokens = some r ∧ h.Reads d separator r := by
  have hcode : code tokens = h.lead ++ h.word :: (h.tag.toList ++
      h.body :: code (d.written ++ [separator])) := by
    rw [← code_withoutTrivia, hs, List.append_assoc, code_written]
    simp [written, front, type]
  have hbody : h.body ∈ tokens := by
    have hmem : h.body ∈ withoutTrivia tokens := by simp [hs, written]
    exact (List.mem_filter.1 hmem).1
  obtain ⟨inner, hinner⟩ := (ht _ hbody).exists_interior? h.body_isBrace
  have hlast : tokens.reverse.find? Token.isSeparator = some separator := by
    rw [← find?_withoutTrivia, withoutTrivia, List.filter_reverse, ← withoutTrivia, hs]
    simp [hseparator]
  simp only [Record.header?, Option.bind_eq_bind, Option.pure_def, code_drop_leading, hcode,
    readKind?_front, Option.bind_some, h.readBody?_front hinner,
    filter_names hd hname hseparator, hlast]
  refine ⟨_, rfl, rfl, ?_, hinner, ?_, ?_⟩
  · cases h.isTypedef <;> rfl
  · cases h.isTypedef <;> rfl
  · cases h.isTypedef <;> rfl

theorem exists_ofTokens? (parent : Option String) (ht : ∀ t ∈ tokens, t.Bracketed)
    (hd : d.ending = []) (hname : isWordAmong defaultAnnotations d.name = false)
    (hseparator : separator.isSeparator = true)
    (hs : withoutTrivia tokens = h.written ++ d.written ++ [separator]) :
    ∃ r, RecordDecl.ofTokens? parent tokens = some r ∧ h.Reads d separator r.toRecord := by
  obtain ⟨header, hheader, hreads⟩ := exists_header? parent ht hd hname hseparator hs
  rw [RecordDecl.ofTokens?_eq, hheader, Option.map_some]
  exact ⟨_, rfl, hreads.kind, hreads.name, hreads.body, hreads.typedefs, hreads.declared⟩

end RecordHead

end CBoundary
