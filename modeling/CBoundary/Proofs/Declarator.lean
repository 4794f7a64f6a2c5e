import CBoundary.Proofs.StatementSplit
import CBoundary.Variable
import Mathlib.Tactic.Tauto

/-!
Declarators as they are written: stars and qualifiers, a name, array bounds, and perhaps an
initializer or a bit width. Behind a type, none of these tokens ends the statement, and what is read
of them is the name, with the type and the stars in front of it. Only in a bit width can a brace
group be taken for the body of a function: behind a parenthesized group, as in the size of a
compound literal, it ends the statement too early. Main statements: `staysOpen` and
`ofTokens?_written`.
-/
namespace CBoundary

open Keyword TokenList

namespace DeclaratorState

variable {d : DeclaratorState} {t : Token} {tokens : List Token}

theorem step_of_isTrivia (h : t.kind.isTrivia = true) : d.step t = some d := by
  simp [step, h]

theorem foldlM_withoutTrivia (d : DeclaratorState) (tokens : List Token) :
    (withoutTrivia tokens).foldlM step d = tokens.foldlM step d := by
  induction tokens generalizing d with
  | nil => rfl
  | cons t rest ih =>
    cases htrivia : t.kind.isTrivia with
    | true => simp [withoutTrivia_cons_of_isTrivia rest htrivia, step_of_isTrivia htrivia, ih]
    | false => simp [withoutTrivia_cons_of_not_isTrivia rest htrivia, ih]

/-- Words and stars are what the type and the name are made of. -/
def Collected (t : Token) : Prop := t.kind = .word ∨ t.isPunct "*" = true

theorem step_collected (hd : d.collecting = true) (ht : Collected t) :
    d.step t = some { d with collected := d.collected ++ [t] } := by
  rcases ht with hword | hstar
  · simp [step, hd, hword, Token.isGroup, Token.isPunct, TokenKind.isTrivia, TokenKind.isSpace,
      TokenKind.isComment]
  · simp only [Token.isPunct, Bool.and_eq_true, beq_iff_eq] at hstar
    simp [step, hd, hstar, Token.isGroup, Token.isPunct, TokenKind.isTrivia, TokenKind.isSpace,
      TokenKind.isComment]

theorem foldlM_collected (hd : d.collecting = true) (ht : ∀ t ∈ tokens, Collected t) :
    tokens.foldlM step d = some { d with collected := d.collected ++ tokens } := by
  induction tokens generalizing d with
  | nil => simp
  | cons t rest ih =>
    obtain ⟨hfirst, hrest⟩ := List.forall_mem_cons.1 ht
    rw [List.foldlM_cons, step_collected hd hfirst, Option.bind_eq_bind, Option.bind_some,
      ih (d := { d with collected := d.collected ++ [t] }) hd hrest]
    simp

theorem foldlM_bounds (ht : ∀ t ∈ tokens, t.isGroup .bracket = true) :
    tokens.foldlM step d = some d := by
  induction tokens with
  | nil => rfl
  | cons t rest ih =>
    obtain ⟨hfirst, hrest⟩ := List.forall_mem_cons.1 ht
    have hkind := Token.kind_of_isGroup hfirst
    have hstep : d.step t = some d := by
      simp [step, hkind, Token.isGroup]
    rw [List.foldlM_cons, hstep, Option.bind_eq_bind, Option.bind_some, ih hrest]

/-- Nothing is read behind the end of a declarator. -/
theorem foldlM_stopped (hd : d.collecting = false) (tokens : List Token) :
    tokens.foldlM step d = some d := by
  induction tokens with
  | nil => rfl
  | cons t rest ih =>
    have hstep : d.step t = some d := by simp [step, hd]
    rw [List.foldlM_cons, hstep, Option.bind_eq_bind, Option.bind_some, ih]

end DeclaratorState

/-- No trivia is a separator. -/
theorem TokenList.find?_withoutTrivia (tokens : List Token) :
    (withoutTrivia tokens).find? Token.isSeparator = tokens.find? Token.isSeparator := by
  rw [withoutTrivia, List.find?_filter]
  congr 1
  funext t
  cases htrivia : t.kind.isTrivia with
  | true => simp [Statement.isSeparator_of_isTrivia htrivia]
  | false => simp

namespace Variable

/-- A declarator without the comments beside it. -/
def uncommented (v : Variable) : Variable := { v with preComment := none, postComment := none }

/-- Reads a declarator off tokens that are no trivia. -/
def read? (tokens : List Token) : Option Variable := do
  let state ← (tokens.takeWhile fun t => !t.isSeparator).foldlM DeclaratorState.step
    DeclaratorState.start
  let (typename, name) ← state.typeAndName?
  return {
    typename := withoutQualifiers typename
    name
    preComment := none
    postComment := none
    terminator := ((tokens.find? Token.isSeparator).map Token.text).getD "" }

theorem terminator_of_read? {tokens : List Token} {v : Variable}
    (h : read? tokens = some v.uncommented) :
    v.terminator = ((tokens.find? Token.isSeparator).map Token.text).getD "" := by
  simp only [read?, Option.bind_eq_bind, Option.bind_eq_some_iff, Option.pure_def,
    Option.some.injEq, Prod.exists] at h
  obtain ⟨state, -, typename, name, -, hv⟩ := h
  exact (congrArg Variable.terminator hv).symm

/-- But for the comments beside it, a declarator is read off the tokens that are no trivia. -/
theorem ofTokens?_uncommented (tokens : List Token) :
    (ofTokens? tokens).map uncommented = read? (withoutTrivia tokens) := by
  have htake (tokens : List Token) : (withoutTrivia tokens).takeWhile (fun t => !t.isSeparator) =
      withoutTrivia (tokens.takeWhile fun t => !t.isSeparator) := by
    rw [withoutTrivia, List.takeWhile_filter, withoutTrivia]
    congr 2
    funext t
    cases htrivia : t.kind.isTrivia with
    | true => simp [Statement.isSeparator_of_isTrivia htrivia]
    | false => simp
  rw [read?, ← withoutTrivia_drop_leading, htake, DeclaratorState.foldlM_withoutTrivia,
    find?_withoutTrivia]
  simp only [ofTokens?, Option.bind_eq_bind, Option.pure_def, Option.map_bind, Function.comp_def,
    Option.map_some]
  rfl

end Variable

/-- A word that can be part of a type. -/
def Token.IsTypeWord (t : Token) : Prop := t.kind = .word ∧ isControlWord t.text = false

/-- A word as it is read off plain text. -/
def Token.wordAt (index start : Nat) (text : String) : Token :=
  ⟨index, ⟨start, start + text.length⟩, .word, text⟩

/-- A sign of one character as it is read off plain text. -/
def Token.signAt (index start : Nat) (text : String) : Token :=
  ⟨index, ⟨start, start + 1⟩, .punctuation, text⟩

/-- A declarator as it is written, space and comments left out. -/
structure Declarator where
  /-- Stars and qualifiers. -/
  stars : List Token
  name : Token
  /-- Array bounds. -/
  bounds : List Token
  /-- An initializer behind an equals sign, a bit width behind a colon, or nothing. -/
  ending : List Token
  stars_or_qualifiers : ∀ t ∈ stars, t.isPunct "*" = true ∨ isWordAmong qualifiers t = true
  name_isName : isName name = true
  bounds_brackets : ∀ t ∈ bounds, t.isGroup .bracket = true
  ending_marked : ending = [] ∨ ∃ mark value, ending = mark :: value ∧
    (mark.isPunct "=" = true ∨ mark.isPunct ":" = true) ∧ Statement.Open value

namespace Declarator

def written (d : Declarator) : List Token := d.stars ++ d.name :: (d.bounds ++ d.ending)

/-- The stars that belong to the declarator. -/
def ownStars (d : Declarator) : List Token := d.stars.filter (·.isPunct "*")

/-- What the declarator declares behind a type, up to a separator. -/
def toVariable (type : List Token) (d : Declarator) (separator : Token) : Variable where
  typename := type ++ d.ownStars
  name := d.name
  preComment := none
  postComment := none
  terminator := separator.text

/-- Stars and a name. -/
def ofName (stars : List Token) (name : Token) (hstars : ∀ t ∈ stars, t.isPunct "*" = true)
    (hname : isName name = true) : Declarator :=
  { stars, name, bounds := [], ending := []
    stars_or_qualifiers := fun t ht => Or.inl (hstars t ht)
    name_isName := hname
    bounds_brackets := by simp
    ending_marked := Or.inl rfl }

/-- In a bit width, no brace group stands behind a parenthesized group. -/
def WidthStaysOpen (d : Declarator) : Prop :=
  ∀ mark lead brace later, d.ending = mark :: (lead ++ brace :: later) →
    mark.isPunct ":" = true → brace.isGroup .brace = true → ∀ t ∈ lead, t.isGroup .paren = false

end Declarator

section Head

variable {t : Token}

theorem isControlWord_of_isQualifier {word : String} (h : isQualifier word = true) :
    isControlWord word = false := by
  have hall : ∀ w ∈ qualifiers, isControlWord w = false := by decide
  exact hall word (List.contains_iff_mem.1 h)

theorem isTypeWord_of_isWordAmong (h : isWordAmong qualifiers t = true) : t.IsTypeWord := by
  simp only [isWordAmong, Bool.and_eq_true, beq_iff_eq] at h
  exact ⟨h.1, isControlWord_of_isQualifier h.2⟩

theorem isTypeWord_of_isName (h : isName t = true) : t.IsTypeWord := by
  simp only [isName, Token.isIdent, isReserved, Bool.and_eq_true, beq_iff_eq, Bool.not_eq_true',
    Bool.or_eq_false_iff] at h
  exact ⟨h.1.1, h.2.1.1.2⟩

/-- What stands in front of an initializer or a bit width: words, stars and array bounds. -/
def Token.IsHead (t : Token) : Prop :=
  t.IsTypeWord ∨ t.isPunct "*" = true ∨ t.isGroup .bracket = true

theorem Token.IsHead.kind (h : t.IsHead) :
    t.kind = .word ∨ t.kind = .punctuation ∧ t.text = "*" ∨ t.kind = .group .bracket := by
  rcases h with hword | hstar | hbracket
  · exact Or.inl hword.1
  · exact Or.inr (Or.inl (by simpa [Token.isPunct] using hstar))
  · exact Or.inr (Or.inr (Token.kind_of_isGroup hbracket))

theorem Token.IsHead.plain (h : t.IsHead) : t.kind ≠ .directive ∧ t.isSeparator = false := by
  rcases h.kind with hkind | hkind | hkind <;>
    simp [hkind, Token.isSeparator, Token.isPunct]

theorem Token.IsHead.isGroup (h : t.IsHead) :
    t.isGroup .paren = false ∧ t.isGroup .brace = false := by
  rcases h.kind with hkind | hkind | hkind <;> simp [hkind, Token.isGroup]

theorem Token.IsHead.kind_ne_stringLiteral (h : t.IsHead) : t.kind ≠ .stringLiteral := by
  rcases h.kind with hkind | hkind | hkind <;> simp [hkind]

theorem Token.IsHead.not_isWord_else (h : t.IsHead) : t.isWord "else" = false := by
  rcases h with hword | hstar | hbracket
  · cases helse : t.isWord "else" with
    | false => rfl
    | true =>
      simp only [Token.isWord, Bool.and_eq_true, beq_iff_eq] at helse
      have hcontrol := hword.2
      rw [helse.2] at hcontrol
      exact absurd hcontrol (by decide)
  · simp only [Token.isPunct, Bool.and_eq_true, beq_iff_eq] at hstar
    simp [Token.isWord, hstar]
  · simp [Token.isWord, Token.kind_of_isGroup hbracket]

end Head

namespace Statement

variable {head value tokens : List Token} {mark brace : Token}

theorem isBareCall_eq_true (h : isBareCall tokens = true) :
    ∃ name arguments, code tokens = [name, arguments] ∧ arguments.isGroup .paren = true := by
  unfold isBareCall at h
  split at h
  · rename_i name arguments hcode
    exact ⟨name, arguments, hcode, (Bool.and_eq_true_iff.1 h).2⟩
  · simp at h

theorem isBareCall_of_no_paren (h : ∀ t ∈ tokens, t.isGroup .paren = false) :
    isBareCall tokens = false := by
  cases hcall : isBareCall tokens with
  | false => rfl
  | true =>
    obtain ⟨name, arguments, hcode, hparen⟩ := isBareCall_eq_true hcall
    have hmem : arguments ∈ code tokens := by simp [hcode]
    simp [h arguments (List.mem_filter.1 hmem).1] at hparen

/-- The sign in front of an initializer or a bit width is code, and neither a group nor a word. -/
theorem mark_plain (h : mark.isPunct "=" = true ∨ mark.isPunct ":" = true) :
    mark.isCode = true ∧ mark.isSeparator = false ∧ mark.kind = .punctuation := by
  rcases h with h | h
  all_goals
    simp only [Token.isPunct, Bool.and_eq_true, beq_iff_eq] at h
    simp [Token.isCode, Token.isSeparator, Token.isPunct, h, TokenKind.isTrivia,
      TokenKind.isSpace, TokenKind.isComment]

/-- A brace group does not end a statement behind an equals sign, as the body of a record, or
without a parenthesized group in front of it. -/
theorem closesStatement_eq_false {start : Token}
    (hbare : Classification.withoutAnnotations defaultAnnotations (code tokens) =
      start :: value ++ [brace])
    (hlinkage : (start.isWord "extern" && value.head?.any (·.kind == .stringLiteral)) = false)
    (helse : start.isWord "else" = false)
    (hopen : (start :: value).any (·.isPunct "=") = true ∨
      (Classification.afterRecordBody? (start :: value ++ [brace])).isSome = true ∨
      (start :: value).any (·.isGroup .paren) = false) : closesStatement tokens = false := by
  have hlast : (start :: value ++ [brace]).dropLast = start :: value := List.dropLast_concat
  unfold closesStatement
  simp only [hbare, hlast, hlinkage, helse, Bool.false_or]
  rcases hopen with hequals | hrecord | hnone
  · rw [hequals, Bool.true_or, Bool.not_true, Bool.false_and]
  · rw [hrecord, Bool.or_true, Bool.not_true, Bool.false_and]
  · rw [hnone, Bool.and_false]

/-- Annotation words are left out on either side of a sign apart. -/
theorem bare_marked (head value : List Token)
    (hmark : mark.isPunct "=" = true ∨ mark.isPunct ":" = true)
    (hbrace : brace.isGroup .brace = true) :
    Classification.withoutAnnotations defaultAnnotations (code (head ++ mark :: value ++ [brace])) =
      Classification.withoutAnnotations defaultAnnotations (code head) ++
        mark :: Classification.withoutAnnotations defaultAnnotations (code value) ++ [brace] := by
  obtain ⟨hcode, -, hkind⟩ := mark_plain hmark
  have hbraceKind := Token.kind_of_isGroup hbrace
  have hall : code (head ++ mark :: value ++ [brace]) =
      code head ++ mark :: (code value ++ [brace]) := by
    rw [List.append_assoc, code_append, List.cons_append, code_cons_of_isCode _ hcode, code_append,
      code_cons_of_isCode [] (Token.isCode_of_isGroup hbrace)]
    rfl
  rw [hall, (Classification.withoutAnnotations_append_cons _ (by simp [isWordAmong, hkind])
      (by simp [Token.isGroup, hkind]) _ _).1,
    (Classification.withoutAnnotations_append_cons _ (by simp [isWordAmong, hbraceKind])
      (by simp [Token.isGroup, hbraceKind]) _ _).1]
  simp [Classification.withoutAnnotations]

/-- A brace group does not end a statement behind an equals sign, or behind a colon as long as no
parenthesized group stands between. -/
theorem closesStatement_of_marked (hhead : ∀ t ∈ head, t.IsHead)
    (hmark : mark.isPunct "=" = true ∨
      mark.isPunct ":" = true ∧ ∀ t ∈ value, t.isGroup .paren = false)
    (hbrace : brace.isGroup .brace = true) :
    closesStatement (head ++ mark :: value ++ [brace]) = false := by
  have hsign : mark.isPunct "=" = true ∨ mark.isPunct ":" = true := hmark.imp id And.left
  have hkind := (mark_plain hsign).2.2
  have hbare := bare_marked head value hsign hbrace
  have hsubset (tokens : List Token) :
      Classification.withoutAnnotations defaultAnnotations (code tokens) ⊆ tokens := fun t ht =>
    (List.mem_filter.1 (Classification.Leaves.subset (Or.inl rfl) ht)).1
  have hheadSubset := hsubset head
  have hvalueSubset := hsubset value
  generalize Classification.withoutAnnotations defaultAnnotations (code head) = front
    at hbare hheadSubset
  generalize Classification.withoutAnnotations defaultAnnotations (code value) = behind
    at hbare hvalueSubset
  have hopen : (front ++ mark :: behind).any (·.isPunct "=") = true ∨
      (front ++ mark :: behind).any (·.isGroup .paren) = false := by
    rcases hmark with hequals | ⟨-, hvalue⟩
    · exact Or.inl (by simp [hequals])
    · right
      have hfront : ∀ t ∈ front, t.isGroup .paren = false := fun t ht =>
        (hhead t (hheadSubset ht)).isGroup.1
      have hbehind : ∀ t ∈ behind, t.isGroup .paren = false := fun t ht =>
        hvalue t (hvalueSubset ht)
      simpa [Token.isGroup, hkind] using And.intro hfront hbehind
  cases front with
  | nil =>
    exact closesStatement_eq_false hbare (by simp [Token.isWord, hkind])
      (by simp [Token.isWord, hkind]) (hopen.imp id Or.inr)
  | cons start others =>
    have hstring : (others ++ mark :: behind).head?.any (·.kind == .stringLiteral) = false := by
      cases others with
      | nil => simp [hkind]
      | cons second others =>
        simpa using (hhead second (hheadSubset (by simp))).kind_ne_stringLiteral
    have hlinkage : (start.isWord "extern" &&
        (others ++ mark :: behind).head?.any (·.kind == .stringLiteral)) = false := by
      rw [hstring, Bool.and_false]
    exact closesStatement_eq_false hbare hlinkage
      (hhead start (hheadSubset List.mem_cons_self)).not_isWord_else (hopen.imp id Or.inr)

theorem code_of_isHead (h : ∀ t ∈ head, t.IsHead) : code head = head := by
  rw [code, List.filter_eq_self]
  intro t ht
  have hplain := (h t ht).plain
  rcases (h t ht).kind with hkind | hkind | hkind <;>
    simp [Token.isCode, hplain, hkind, TokenKind.isTrivia, TokenKind.isSpace, TokenKind.isComment]

theorem staysOpen_of_isHead (h : ∀ t ∈ head, t.IsHead) : StaysOpen head where
  plain t ht := (h t ht).plain
  brace := by
    rintro lead t later rfl hbrace
    simp [(h t (by simp)).isGroup.2] at hbrace
  call := by
    rintro lead later rfl
    exact isBareCall_of_no_paren fun t ht => (h t (by simp [ht])).isGroup.1

/-- With a sign behind its head, a statement is no bare call. -/
theorem isBareCall_of_marked (hhead : ∀ t ∈ head, t.IsHead) (hne : head ≠ [])
    (hmark : mark.isPunct "=" = true ∨ mark.isPunct ":" = true) :
    isBareCall (head ++ mark :: value) = false := by
  obtain ⟨hcode, -, hkind⟩ := mark_plain hmark
  cases hcall : isBareCall (head ++ mark :: value) with
  | false => rfl
  | true =>
    obtain ⟨name, arguments, htwo, hparen⟩ := isBareCall_eq_true hcall
    rw [code_append, code_of_isHead hhead, code_cons_of_isCode _ hcode] at htwo
    obtain ⟨start, others, rfl⟩ := List.exists_cons_of_ne_nil hne
    cases others with
    | nil =>
      obtain ⟨rfl, -⟩ := List.cons.inj (List.cons.inj htwo).2
      simp [Token.isGroup, hkind] at hparen
    | cons second others =>
      obtain ⟨rfl, -⟩ := List.cons.inj (List.cons.inj htwo).2
      simp [(hhead second (by simp)).isGroup.1] at hparen

theorem staysOpen_of_marked (hhead : ∀ t ∈ head, t.IsHead) (hne : head ≠ [])
    (hmark : mark.isPunct "=" = true ∨ mark.isPunct ":" = true) (hvalue : Open value)
    (hwidth : ∀ lead brace later, value = lead ++ brace :: later → mark.isPunct ":" = true →
      brace.isGroup .brace = true → ∀ t ∈ lead, t.isGroup .paren = false) :
    StaysOpen (head ++ mark :: value) where
  plain := by
    obtain ⟨-, hseparator, hkind⟩ := mark_plain hmark
    intro t ht
    rcases List.mem_append.1 ht with ht | ht
    · exact (hhead t ht).plain
    · rcases List.mem_cons.1 ht with rfl | ht
      · exact ⟨by simp [hkind], hseparator⟩
      · exact hvalue t ht
  brace := by
    obtain ⟨-, -, hkind⟩ := mark_plain hmark
    intro lead t later hsplit hbrace
    have hother : t ≠ mark := by
      rintro rfl
      simp [Token.isGroup, hkind] at hbrace
    rcases List.append_eq_append_iff.1 hsplit with ⟨front, rfl, hrest⟩ | ⟨front, rfl, hrest⟩
    · cases front with
      | nil => exact absurd (List.cons.inj hrest).1.symm hother
      | cons u front =>
        obtain ⟨rfl, rfl⟩ := List.cons.inj hrest
        refine closesStatement_of_marked hhead ?_ hbrace
        exact hmark.imp id fun hcolon => ⟨hcolon, hwidth front t later rfl hcolon hbrace⟩
    · cases front with
      | nil => exact absurd (List.cons.inj hrest).1 hother
      | cons u front =>
        obtain ⟨rfl, -⟩ := List.cons.inj hrest
        simp [(hhead t (by simp)).isGroup.2] at hbrace
  call := by
    intro lead later hsplit
    rcases List.append_eq_append_iff.1 hsplit with ⟨front, rfl, hrest⟩ | ⟨front, rfl, -⟩
    · cases front with
      | nil => exact (staysOpen_of_isHead hhead).call _ [] (by simp)
      | cons u front =>
        obtain ⟨rfl, -⟩ := List.cons.inj hrest
        exact isBareCall_of_marked hhead hne hmark
    · exact (staysOpen_of_isHead hhead).call lead front rfl

end Statement

section Written

open Statement

variable {lead tokens behind : List Token} {separator : Token}

theorem Declarator.widthStaysOpen_of_no_brace {d : Declarator}
    (h : ∀ t ∈ d.ending, t.isGroup .brace = false) : d.WidthStaysOpen := by
  intro mark lead brace later hending _ hbrace
  simp [h brace (by simp [hending])] at hbrace

theorem Declarator.isHead (d : Declarator) : ∀ t ∈ d.stars ++ d.name :: d.bounds, t.IsHead := by
  intro t ht
  simp only [List.mem_append, List.mem_cons] at ht
  rcases ht with ht | rfl | ht
  · exact (d.stars_or_qualifiers t ht).elim (Or.inr ∘ Or.inl)
      (Or.inl ∘ isTypeWord_of_isWordAmong)
  · exact Or.inl (isTypeWord_of_isName d.name_isName)
  · exact Or.inr (Or.inr (d.bounds_brackets t ht))

theorem Declarator.isHead_of_mem_written {d : Declarator} (hd : d.ending = []) :
    ∀ t ∈ d.written, t.IsHead := by
  have hwritten : d.written = d.stars ++ d.name :: d.bounds := by simp [written, hd]
  rw [hwritten]
  exact d.isHead

/-- A statement goes on over a type and a declarator. -/
theorem Declarator.staysOpen {d : Declarator} (hd : d.WidthStaysOpen)
    (hlead : ∀ t ∈ lead, t.IsTypeWord) : StaysOpen (lead ++ d.written) := by
  have hhead : ∀ t ∈ lead ++ (d.stars ++ d.name :: d.bounds), t.IsHead := by
    intro t ht
    exact (List.mem_append.1 ht).elim (fun ht => Or.inl (hlead t ht)) (d.isHead t)
  have hwritten : lead ++ d.written = lead ++ (d.stars ++ d.name :: d.bounds) ++ d.ending := by
    simp [written]
  rw [hwritten]
  rcases d.ending_marked with hnone | ⟨mark, value, hending, hmark, hvalue⟩
  · rw [hnone, List.append_nil]
    exact staysOpen_of_isHead hhead
  · rw [hending]
    refine staysOpen_of_marked hhead (by simp) hmark hvalue ?_
    rintro front brace later rfl
    exact hd mark front brace later hending

theorem Declarator.open_written (d : Declarator) (hlead : ∀ t ∈ lead, t.IsTypeWord) :
    Open (lead ++ d.written) := by
  intro t ht
  have hcases : t ∈ lead ∨ t ∈ d.stars ++ d.name :: d.bounds ∨ t ∈ d.ending := by
    simp only [Declarator.written, List.mem_append, List.mem_cons] at ht ⊢
    tauto
  rcases hcases with ht | ht | ht
  · exact Token.IsHead.plain (Or.inl (hlead t ht))
  · exact (d.isHead t ht).plain
  · rcases d.ending_marked with hnone | ⟨mark, value, hending, hmark, hvalue⟩
    · simp [hnone] at ht
    · rw [hending] at ht
      rcases List.mem_cons.1 ht with rfl | ht
      · obtain ⟨-, hseparator, hkind⟩ := mark_plain hmark
        exact ⟨by simp [hkind], hseparator⟩
      · exact hvalue t ht

theorem Declarator.withoutQualifiers_stars (d : Declarator) :
    withoutQualifiers d.stars = d.ownStars := by
  rw [withoutQualifiers, ownStars]
  refine List.filter_congr fun t ht => ?_
  rcases d.stars_or_qualifiers t ht with hstar | hqualifier
  · simp only [Token.isPunct, Bool.and_eq_true, beq_iff_eq] at hstar
    rw [Token.isPunct, hstar.1, hstar.2]
    rfl
  · simp only [isWordAmong, Bool.and_eq_true, beq_iff_eq] at hqualifier
    rw [isQualifier, hqualifier.2, Token.isPunct, hqualifier.1]
    rfl

/-- Reading stops at the sign in front of an initializer or a bit width. -/
theorem Declarator.foldlM_ending (d : Declarator) (state : DeclaratorState)
    (hstate : state.collecting = true) :
    ∃ collecting, d.ending.foldlM DeclaratorState.step state = some { state with collecting } := by
  rcases d.ending_marked with hnone | ⟨mark, value, hending, hmark, -⟩
  · exact ⟨true, by rw [hnone, List.foldlM_nil, ← hstate]; rfl⟩
  · refine ⟨false, ?_⟩
    obtain ⟨-, -, hkind⟩ := mark_plain hmark
    have hstep : state.step mark = some { state with collecting := false } := by
      rcases hmark with h | h <;>
        simp [DeclaratorState.step, hstate, h, hkind, Token.isGroup, TokenKind.isTrivia,
          TokenKind.isSpace, TokenKind.isComment]
    rw [hending, List.foldlM_cons, hstep, Option.bind_eq_bind, Option.bind_some,
      DeclaratorState.foldlM_stopped rfl]

/-- A declarator behind a type, as it is read without trivia. -/
theorem Variable.read?_written (d : Declarator) (hlead : ∀ t ∈ lead, t.IsTypeWord)
    (hseparator : separator.isSeparator = true) :
    read? (lead ++ d.written ++ [separator]) =
      some (d.toVariable (withoutQualifiers lead) separator) := by
  have hnone : ∀ t ∈ lead ++ d.written, t.isSeparator = false := fun t ht =>
    (d.open_written hlead t ht).2
  have htake : (lead ++ d.written ++ [separator]).takeWhile (fun t => !t.isSeparator) =
      lead ++ d.written := by
    rw [List.takeWhile_append_of_pos (by simpa using hnone)]
    simp [hseparator]
  have hfind : (lead ++ d.written ++ [separator]).find? Token.isSeparator = some separator := by
    rw [List.find?_append, List.find?_eq_none.2 (by simpa using hnone)]
    simp [hseparator]
  have hwritten : lead ++ d.written = lead ++ d.stars ++ [d.name] ++ d.bounds ++ d.ending := by
    simp [Declarator.written]
  have hcollected : ∀ t ∈ lead ++ d.stars ++ [d.name], DeclaratorState.Collected t := by
    intro t ht
    simp only [List.mem_append, List.mem_singleton] at ht
    rcases ht with (ht | ht) | rfl
    · exact Or.inl (hlead t ht).1
    · exact (d.stars_or_qualifiers t ht).symm.imp Token.kind_of_isWordAmong id
    · exact Or.inl (isTypeWord_of_isName d.name_isName).1
  obtain ⟨collecting, hending⟩ :=
    d.foldlM_ending ⟨lead ++ d.stars ++ [d.name], none, true⟩ rfl
  have hfold : (lead ++ d.written).foldlM DeclaratorState.step DeclaratorState.start =
      some ⟨lead ++ d.stars ++ [d.name], none, collecting⟩ := by
    rw [hwritten, List.foldlM_append, List.foldlM_append,
      DeclaratorState.foldlM_collected rfl hcollected, Option.bind_eq_bind, Option.bind_some,
      DeclaratorState.foldlM_bounds d.bounds_brackets, Option.bind_some]
    exact hending
  have hword : d.name.isGroup .paren = false :=
    Token.isGroup_of_kind_word (isTypeWord_of_isName d.name_isName).1
  have hname : DeclaratorState.typeAndName? ⟨lead ++ d.stars ++ [d.name], none, collecting⟩ =
      some (lead ++ d.stars, d.name) := by
    simp [DeclaratorState.typeAndName?, hword, d.name_isName]
  have htype : withoutQualifiers (lead ++ d.stars) = withoutQualifiers lead ++ d.ownStars := by
    rw [← d.withoutQualifiers_stars]
    exact List.filter_append _ _
  rw [read?, htake, hfold, hfind]
  simp only [Option.bind_eq_bind, Option.bind_some, hname, htype]
  rfl

/-- A statement of a type and a declarator is read as it is written. -/
theorem Variable.ofTokens?_written (d : Declarator) (hlead : ∀ t ∈ lead, t.IsTypeWord)
    (hseparator : separator.isSeparator = true)
    (h : withoutTrivia tokens = lead ++ d.written ++ [separator]) :
    ∃ v, ofTokens? tokens = some v ∧
      v.uncommented = d.toVariable (withoutQualifiers lead) separator := by
  have hread := ofTokens?_uncommented tokens
  rw [h, read?_written d hlead hseparator] at hread
  exact Option.map_eq_some_iff.1 hread

theorem Variable.ofTokens?_of_trivia (h : withoutTrivia tokens = []) : ofTokens? tokens = none := by
  have hread := ofTokens?_uncommented tokens
  rw [h] at hread
  exact Option.map_eq_none_iff.1 hread

end Written

end CBoundary
