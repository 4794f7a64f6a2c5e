import CBoundary.Classification
import CBoundary.TokenStream

/-!
A token stream is cut into statements: behind a comma or a semicolon, behind a brace group
that closes a body, around each directive, and behind a line that holds nothing but a call
when the next line starts a declaration. Blanks and comments on the same line after a comma,
a semicolon or a body stay with the statement in front of them. Main statement: the
statements, put together, are the stream.
-/
namespace CBoundary

/-- A statement is a list of tokens; everything else is read off them. -/
structure Statement where
  tokens : List Token
deriving DecidableEq, Repr, Inhabited

namespace Statement

open Keyword Classification

def kind (s : Statement) : StatementKind := classify s.tokens

def span (s : Statement) : Span := TokenList.span s.tokens

/-- The comma or semicolon at the end of the statement, if its last token that is not trivia
is one. -/
def terminator? (s : Statement) : Option String :=
  match s.tokens.reverse.find? fun t => !t.kind.isTrivia with
  | some last => if last.isSeparator then some last.text else none
  | none => none

/-- Does the statement hold nothing but trivia? -/
def isEmpty (s : Statement) : Bool := s.tokens.all (·.kind.isTrivia)

def render (s : Statement) : String := s.kind.render ++ " " ++ TokenList.render s.tokens

/-- Splits off the blanks and comments that continue the line, up to and including the first
line comment. -/
def splitTrailing : List Token → List Token × List Token
  | [] => ([], [])
  | t :: rest =>
      match t.kind with
      | .blanks | .blockComment => (t :: (splitTrailing rest).1, (splitTrailing rest).2)
      | .lineComment => ([t], rest)
      | _ => ([], t :: rest)

/-- A name and a parenthesized group and no other code: a call that stands as a
statement. -/
def isBareCall (tokens : List Token) : Bool :=
  match TokenList.code tokens with
  | [name, arguments] => isName name && arguments.isGroup .paren
  | _ => false

/-- Does the brace group at the end of `tokens` end a statement? It does after a linkage
specification, after `else`, on its own, and as the body of a function or a control
statement, but not as an initializer or the body of a record. -/
def closesStatement (tokens : List Token) : Bool :=
  let code := withoutAnnotations defaultAnnotations (TokenList.code tokens)
  match code.dropLast with
  | [] => true
  | start :: rest =>
      (start.isWord "extern" && rest.head?.any (·.kind == .stringLiteral)) ||
        start.isWord "else" ||
        (!(code.dropLast.any (·.isPunct "=") || (afterRecordBody? code).isSome) &&
          code.dropLast.any (·.isGroup .paren))

/-- Do the next two tokens that are not trivia, with no directive before them, start a
declaration? -/
def declarationFollows (tokens : List Token) : Bool :=
  match (tokens.takeWhile (·.kind != .directive)).filter fun t => !t.kind.isTrivia with
  | [] => false
  | start :: rest =>
      start.kind == .word &&
        if isReserved start.text then !isControlWord start.text
        else rest.head?.any fun t => t.kind == .word || t.isPunct "*"

/-- Splits the rest of a statement off a stream; `taken` holds the tokens of the statement
read so far. -/
def split (taken : List Token) : List Token → List Token × List Token
  | [] => (taken, [])
  | t :: rest =>
      if t.kind = .directive then
        if taken.any Token.isCode then (taken, t :: rest) else (taken ++ [t], rest)
      else if t.isSeparator || (t.isGroup .brace && closesStatement (taken ++ [t])) then
        (taken ++ t :: (splitTrailing rest).1, (splitTrailing rest).2)
      else if t.kind = .newline && isBareCall (taken ++ [t]) && declarationFollows rest then
        (taken ++ [t], rest)
      else split (taken ++ [t]) rest

theorem splitTrailing_append (tokens : List Token) :
    (splitTrailing tokens).1 ++ (splitTrailing tokens).2 = tokens := by
  fun_induction splitTrailing tokens <;> simp_all

/-- Splitting neither loses nor reorders tokens. -/
theorem split_append (taken tokens : List Token) :
    (split taken tokens).1 ++ (split taken tokens).2 = taken ++ tokens := by
  fun_induction split taken tokens <;> simp_all [splitTrailing_append]

/-- A statement keeps the tokens it starts with. -/
theorem length_le_split (taken tokens : List Token) :
    taken.length ≤ (split taken tokens).1.length := by
  fun_induction split taken tokens <;> simp_all
  all_goals omega

/-- Splitting makes progress: a statement read from its start takes at least one token. -/
theorem split_pos (t : Token) (rest : List Token) :
    0 < (split [] (t :: rest)).1.length := by
  have h := length_le_split ([] ++ [t]) rest
  simp only [List.nil_append, List.length_singleton] at h
  rw [split]
  split
  · simp
  · split
    · simp
    · split
      · simp
      · simp only [List.nil_append]
        omega

theorem length_split_lt (t : Token) (rest : List Token) :
    (split [] (t :: rest)).2.length < (t :: rest).length := by
  have happend := congrArg List.length (split_append [] (t :: rest))
  have hpos := split_pos t rest
  simp only [List.length_append, List.nil_append] at happend
  omega

/-- The statements of a token stream. -/
def ofTokens : List Token → List Statement
  | [] => []
  | t :: rest => ⟨(split [] (t :: rest)).1⟩ :: ofTokens (split [] (t :: rest)).2
termination_by tokens => tokens.length
decreasing_by exact length_split_lt t rest

/-- The statements, put together, are the stream. -/
theorem flatMap_tokens_ofTokens (tokens : List Token) :
    (ofTokens tokens).flatMap Statement.tokens = tokens := by
  fun_induction ofTokens tokens with
  | case1 => rfl
  | case2 t rest ih =>
    rw [List.flatMap_cons, ih]
    simpa using split_append [] (t :: rest)

/-- The statements of source text that starts at byte `base` of its file. -/
def ofSource (base : Nat) (text : String) : List Statement :=
  ofTokens (TokenStream.ofSource base text)

/-- The statements of a token's text, read in place. -/
def within (token : Token) : List Statement := ofTokens (TokenStream.within token)

end Statement

end CBoundary
