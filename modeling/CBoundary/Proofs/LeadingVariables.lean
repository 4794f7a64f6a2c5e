import CBoundary.FunctionDecl
import CBoundary.Proofs.Declarator
import CBoundary.Proofs.StatementReader
import Mathlib.Data.List.Induction

/-!
Where the variables at the top of a body end. A type is carried past a statement if the statement is
a declarator with a comma behind it, and past what is no declarator. So a semicolon ends what is
carried unless the statement in front of it is no declarator. Once a list has ended, reading stops
at the next statement that runs code, and nothing is read off a statement that runs code unless a
comma stands in front of it. Main statements: `isCarrying_parse` and `semicolon_ends_list`.
-/
namespace CBoundary

open TokenList

namespace Statement

/-- The separator at the end of a statement is the only one in it. -/
theorem terminator?_eq {tokens : List Token} {s : Statement} (hs : s ∈ ofTokens tokens) :
    s.terminator? = (s.tokens.find? Token.isSeparator).map Token.text := by
  have hseparator := (segmentation_ofTokens tokens).separator s hs
  cases hfind : s.tokens.find? Token.isSeparator with
  | none =>
    rw [terminator?]
    cases hlast : s.tokens.reverse.find? fun t => !t.kind.isTrivia with
    | none => rfl
    | some last =>
      have hmem : last ∈ s.tokens := List.mem_reverse.1 (List.mem_of_find?_eq_some hlast)
      simpa using List.find?_eq_none.1 hfind last hmem
  | some t =>
    obtain ⟨ht, lead, trail, htokens, -⟩ := List.find?_eq_some_iff_append.1 hfind
    obtain ⟨-, front, last, htrail, hfront, hlast⟩ := hseparator lead t trail htokens ht
    have htrivia : ∀ u ∈ trail.reverse, u.kind.isTrivia = true := by
      intro u hu
      rw [htrail, List.mem_reverse, List.mem_append] at hu
      rcases hu with hu | hu
      · rcases hfront u hu with hkind | hkind <;>
          simp [hkind, TokenKind.isTrivia, TokenKind.isSpace, TokenKind.isComment]
      · rcases hlast with rfl | ⟨v, rfl, hkind⟩
        · simp at hu
        · rw [List.mem_singleton.1 hu, hkind]
          rfl
    have hother : t.kind.isTrivia = false := by
      rw [kind_of_isSeparator ht]
      rfl
    have hfound : s.tokens.reverse.find? (fun t => !t.kind.isTrivia) = some t := by
      rw [htokens, List.reverse_append, List.reverse_cons, List.append_assoc, List.find?_append,
        List.find?_eq_none.2 (by simpa using htrivia)]
      simp [hother]
    rw [terminator?, hfound]
    simp [ht]

theorem terminator?_eq_comma_or_semicolon {s : Statement} {text : String}
    (h : s.terminator? = some text) : text = "," ∨ text = ";" := by
  unfold terminator? at h
  split at h
  · rename_i last _
    split at h
    · rename_i hseparator
      obtain rfl := Option.some.inj h
      simp only [Token.isSeparator, Token.isPunct, Bool.or_eq_true, Bool.and_eq_true,
        beq_iff_eq] at hseparator
      exact hseparator.imp And.right And.right
    · cases h
  · cases h

/-- The separator that was met last. -/
def lastTerminator? (statements : List Statement) : Option String :=
  statements.reverse.findSome? terminator?

theorem lastTerminator?_concat (statements : List Statement) (s : Statement) :
    lastTerminator? (statements ++ [s]) = s.terminator?.or (lastTerminator? statements) := by
  rw [lastTerminator?, List.reverse_append, List.reverse_singleton, List.singleton_append,
    List.findSome?_cons, lastTerminator?]
  cases s.terminator? <;> rfl

end Statement

namespace TypeCarry

open Statement

variable {tokens : List Token} {s : Statement} (c : TypeCarry)

/-- A declarator carries its type on past a comma only; past what is no declarator all stays as it
is. -/
theorem isCarrying_parse (hs : s ∈ ofTokens tokens) :
    (c.parse s.tokens).2.isCarrying =
      if (Variable.ofTokens? s.tokens).isSome then s.terminator? == some "," else c.isCarrying := by
  rw [parse]
  cases hv : Variable.ofTokens? s.tokens with
  | none => simp
  | some v =>
    have hread := Variable.ofTokens?_uncommented s.tokens
    rw [hv, Option.map_some] at hread
    have hterminator : v.terminator = s.terminator?.getD "" := by
      rw [terminator?_eq hs, ← find?_withoutTrivia]
      exact Variable.terminator_of_read? hread.symm
    have hcomplete : (c.complete v).terminator = v.terminator := by
      rw [complete]
      split <;> rfl
    simp only [after, hcomplete, hterminator, Option.isSome_some, if_true]
    cases hend : s.terminator? with
    | none => rfl
    | some text =>
      rcases terminator?_eq_comma_or_semicolon hend with rfl | rfl <;> rfl

/-- A semicolon ends what is carried unless it stands behind what is no declarator. -/
theorem isCarrying_parse_of_semicolon (hs : s ∈ ofTokens tokens)
    (hsemicolon : s.terminator? = some ";") :
    (c.parse s.tokens).2.isCarrying = true ↔
      c.isCarrying = true ∧ Variable.ofTokens? s.tokens = none := by
  rw [c.isCarrying_parse hs, hsemicolon]
  cases Variable.ofTokens? s.tokens <;> simp

end TypeCarry

namespace FunctionDecl

open Statement

variable {tokens : List Token} {c : TypeCarry} {before later statements : List Statement}
  {s : Statement}

/-- What is carried past a statement at the top of a body. -/
def nextCarry (c : TypeCarry) (s : Statement) : TypeCarry :=
  if c.isCarrying || s.kind.isPlainDeclaration then (c.parse s.tokens).2 else TypeCarry.idle

/-- What is carried past a list of statements at the top of a body. -/
def carriedOver (c : TypeCarry) (statements : List Statement) : TypeCarry :=
  statements.foldl nextCarry c

/-- Where a semicolon ends a list of declarators, a declarator stands in front of it. -/
def EndsReadably (statements : List Statement) : Prop :=
  ∀ before s later, statements = before ++ s :: later → s.terminator? = some ";" →
    (carriedOver TypeCarry.idle before).isCarrying = true →
    (Variable.ofTokens? s.tokens).isSome = true

/-- Reading stops at a statement that runs code if nothing is carried up to it. -/
theorem leadingVariables_append_stop (hcarry : (carriedOver c before).isCarrying = false)
    (hs : s.kind.isExecutable = true) :
    leadingVariables c (before ++ s :: later) = leadingVariables c before := by
  induction before generalizing c with
  | nil =>
    have hidle : c.isCarrying = false := hcarry
    simp [leadingVariables, hidle, hs]
  | cons t before ih =>
    have hnext := ih (c := nextCarry c t) hcarry
    rw [List.cons_append, leadingVariables, leadingVariables]
    split
    · rfl
    · split
      · rename_i hread
        rw [nextCarry, if_pos hread] at hnext
        rw [hnext]
      · rename_i hread
        rw [nextCarry, if_neg hread] at hnext
        exact hnext

/-- A variable is read off a plain declaration, or where a type is carried. -/
theorem exists_parse_of_mem_leadingVariables {v : Variable}
    (hv : v ∈ leadingVariables c statements) :
    ∃ before s later, statements = before ++ s :: later ∧
      ((carriedOver c before).parse s.tokens).1 = some v ∧
      ((carriedOver c before).isCarrying = true ∨ s.kind.isPlainDeclaration = true) := by
  induction statements generalizing c with
  | nil => simp [leadingVariables] at hv
  | cons t rest ih =>
    have hlater (h : v ∈ leadingVariables (nextCarry c t) rest) :
        ∃ before s later, t :: rest = before ++ s :: later ∧
          ((carriedOver c before).parse s.tokens).1 = some v ∧
          ((carriedOver c before).isCarrying = true ∨ s.kind.isPlainDeclaration = true) := by
      obtain ⟨before, s, later, rfl, hparse, hread⟩ := ih h
      exact ⟨t :: before, s, later, rfl, hparse, hread⟩
    rw [leadingVariables] at hv
    split at hv
    · simp at hv
    · split at hv
      · rename_i hread
        rw [nextCarry, if_pos hread] at hlater
        rcases List.mem_append.1 hv with hv | hv
        · refine ⟨[], t, rest, rfl, Option.mem_toList.1 hv, ?_⟩
          simpa [carriedOver] using hread
        · exact hlater hv
      · rename_i hread
        rw [nextCarry, if_neg hread] at hlater
        exact hlater hv

/-- While a type is carried, the separator that was met last is a comma. -/
theorem lastTerminator?_of_isCarrying (hcut : ∀ s ∈ before, s ∈ ofTokens tokens)
    (hends : EndsReadably before)
    (hcarry : (carriedOver TypeCarry.idle before).isCarrying = true) :
    lastTerminator? before = some "," := by
  induction before using List.reverseRecOn with
  | nil => simp [carriedOver, TypeCarry.isCarrying, TypeCarry.idle] at hcarry
  | append_singleton before s ih =>
    have hs : s ∈ ofTokens tokens := hcut s (by simp)
    have hbefore := ih (fun u hu => hcut u (List.mem_append_left _ hu)) fun first u rest hsplit =>
      hends first u (rest ++ [s]) (by rw [hsplit, List.append_assoc, List.cons_append])
    have hlast := hends before s [] rfl
    generalize hc : carriedOver TypeCarry.idle before = c at hbefore hlast
    have hnext : (nextCarry c s).isCarrying = true := by
      rw [← hc]
      simpa [carriedOver] using hcarry
    rw [lastTerminator?_concat]
    rw [nextCarry] at hnext
    split at hnext
    · rw [c.isCarrying_parse hs] at hnext
      split at hnext
      · rw [beq_iff_eq.1 hnext, Option.some_or]
      · rename_i hnone
        cases hend : s.terminator? with
        | none => rw [Option.none_or, hbefore hnext]
        | some text =>
          rcases terminator?_eq_comma_or_semicolon hend with rfl | rfl
          · rfl
          · exact absurd (hlast hend hnext) hnone
    · simp [TypeCarry.isCarrying, TypeCarry.idle] at hnext

theorem isExecutable_of_isPlainDeclaration {kind : StatementKind}
    (h : kind.isPlainDeclaration = true) : kind.isExecutable = false := by
  cases kind <;> simp_all [StatementKind.isPlainDeclaration, StatementKind.isExecutable]

/-- It is enough that a declarator stands in front of every semicolon. -/
theorem endsReadably_of_forall
    (h : ∀ s ∈ statements, s.terminator? = some ";" → (Variable.ofTokens? s.tokens).isSome = true) :
    EndsReadably statements := by
  rintro before s later rfl hend -
  exact h s (by simp) hend

/-- A semicolon ends what is carried unless it stands behind what is no declarator. Hence, where the
lists end readably, a statement that runs code ends the variables at the top of a body if the
separator in front of it is no comma, and no variable is read off it. -/
theorem semicolon_ends_list (c : TypeCarry) (f : FunctionDecl) {body : Token}
    (hbody : f.body = some body) :
    (∀ tokens s, s ∈ ofTokens tokens → s.terminator? = some ";" →
      ((c.parse s.tokens).2.isCarrying = true ↔
        c.isCarrying = true ∧ Variable.ofTokens? s.tokens = none)) ∧
    (∀ before s later, within body = before ++ s :: later → EndsReadably before →
      s.kind.isExecutable = true → lastTerminator? before ≠ some "," →
      f.localVariables = leadingVariables TypeCarry.idle before) ∧
    ∀ v ∈ f.localVariables, ∃ before s later, within body = before ++ s :: later ∧
      ((carriedOver TypeCarry.idle before).parse s.tokens).1 = some v ∧
      (EndsReadably before → s.kind.isExecutable = true →
        lastTerminator? before = some ",") := by
  have hlocal : f.localVariables = leadingVariables TypeCarry.idle (within body) := by
    rw [localVariables, hbody]
    rfl
  have hcut {before later : List Statement} {s : Statement}
      (hsplit : within body = before ++ s :: later) :
      ∀ u ∈ before, u ∈ ofTokens (TokenStream.within body) := by
    intro u hu
    have hmem : u ∈ within body := hsplit ▸ List.mem_append_left _ hu
    exact hmem
  refine ⟨fun tokens s hs hend => c.isCarrying_parse_of_semicolon hs hend, ?_, ?_⟩
  · intro before s later hsplit hends hrun hlast
    have hcarry : (carriedOver TypeCarry.idle before).isCarrying = false := by
      by_contra hcarrying
      exact hlast (lastTerminator?_of_isCarrying (hcut hsplit) hends (by simpa using hcarrying))
    rw [hlocal, hsplit, leadingVariables_append_stop hcarry hrun]
  · intro v hv
    obtain ⟨before, s, later, hsplit, hparse, hread⟩ :=
      exists_parse_of_mem_leadingVariables (hlocal ▸ hv)
    refine ⟨before, s, later, hsplit, hparse, ?_⟩
    intro hends hrun
    rcases hread with hcarrying | hplain
    · exact lastTerminator?_of_isCarrying (hcut hsplit) hends hcarrying
    · simp [isExecutable_of_isPlainDeclaration hplain] at hrun

/-- Two declarators, an assignment and a declaration: the variables are those of the declarators. -/
theorem assignment_ends_locals :
    let statement := Statement.ofSource 0 "int f(void) \x7b int a, *b = 0; a = 1; int c; \x7d"
    ∃ (f : FunctionDecl) (body : Token) (before later : List Statement) (s : Statement),
      statement.head?.bind ofStatement? = some f ∧ f.body = some body ∧
      within body = before ++ s :: later ∧ EndsReadably before ∧ s.kind.isExecutable = true ∧
      lastTerminator? before ≠ some "," ∧ before.length = 2 ∧
      f.localVariables = leadingVariables TypeCarry.idle before := by
  intro statement
  let f := (statement.head?.bind ofStatement?).getD default
  let body := f.body.getD default
  let before := (within body).take 2
  let later := (within body).drop 3
  let s := (within body)[2]!
  obtain ⟨hf, hbody, hsplit, hdeclarators, hrun, hlast, hlength⟩ :
      statement.head?.bind ofStatement? = some f ∧ f.body = some body ∧
      within body = before ++ s :: later ∧
      (∀ s ∈ before, s.terminator? = some ";" → (Variable.ofTokens? s.tokens).isSome = true) ∧
      s.kind.isExecutable = true ∧ lastTerminator? before ≠ some "," ∧ before.length = 2 := by
    decide +kernel
  have hends := endsReadably_of_forall hdeclarators
  exact ⟨f, body, before, later, s, hf, hbody, hsplit, hends, hrun, hlast, hlength,
    (semicolon_ends_list TypeCarry.idle f hbody).2.1 before s later hsplit hends hrun hlast⟩

/-- Behind a semicolon and what is no declarator, the type is still carried, and a word of the next
statement is read as a type. -/
theorem parenthesized_declarator_leaks :
    let statement := Statement.ofSource 0 "int f(void) \x7b int a, (b); return x; \x7d"
    let read := fun (f : FunctionDecl) => f.localVariables.map fun v =>
      (TokenList.texts v.typename, v.name.text)
    (statement.head?.bind ofStatement?).map read = some [(["int"], "a"), (["return"], "x")] := by
  decide +kernel

end FunctionDecl

end CBoundary
