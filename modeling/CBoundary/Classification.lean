import CBoundary.Keyword
import CBoundary.StatementKind

/-!
Which kind of statement a list of tokens is. The rules look at the code tokens only, with
annotation words removed, and are tried in a fixed order; the first that applies decides, and
what no rule recognises is an expression.
-/
namespace CBoundary.Classification

open Keyword

/-- Code tokens without annotation words and the parenthesized group right after each. -/
def withoutAnnotations (annotations : List String) : List Token → List Token
  | [] => []
  | [t] => if isWordAmong annotations t then [] else [t]
  | t :: u :: rest =>
      if isWordAmong annotations t then
        if u.isGroup .paren then withoutAnnotations annotations rest
        else withoutAnnotations annotations (u :: rest)
      else t :: withoutAnnotations annotations (u :: rest)

/-- The tokens behind the body of a record definition, if that is what the code is:
qualifiers, a record word, perhaps a tag, and a brace group. -/
def afterRecordBody? (code : List Token) : Option (List Token) :=
  match code.dropWhile (isWordAmong qualifiers) with
  | [] => none
  | word :: rest =>
      if isWordAmong recordWords word then
        let untagged := match rest with
          | tag :: behind => if tag.isIdent then behind else rest
          | [] => []
        match untagged with
        | body :: behind => if body.isGroup .brace then some behind else none
        | [] => none
      else none

/-- A parenthesized group whose first character inside is a star: a pointer declarator. -/
def isPointerGroup (t : Token) : Bool :=
  t.isGroup .paren && (CharacterClass.trimStart (t.chars.drop 1)).head? == some '*'

/-- Identifiers and stars only, at least `leastWords` identifiers, the last token a name. -/
def isTypeHead (leastWords : Nat) (head : List Token) : Bool :=
  head.all (fun t => t.isIdent || t.isPunct "*") &&
    leastWords ≤ head.countP (·.kind == .word) &&
    head.getLast?.any isName

/-- Can the tokens stand in front of an initializer, given how many identifiers and whether
a pointer declarator came before? Identifiers, stars, array bounds and pointer declarators
can, and after a pointer declarator so can its parameter list. -/
def isDeclaratorHead (words : Nat) (pointer : Bool) : List Token → Bool
  | [] => 2 ≤ words || (1 ≤ words && pointer)
  | t :: rest =>
      if t.isIdent then isDeclaratorHead (words + 1) pointer rest
      else if t.isGroup .bracket || t.isPunct "*" then isDeclaratorHead words pointer rest
      else if isPointerGroup t then isDeclaratorHead words true rest
      else if t.isGroup .paren && pointer then isDeclaratorHead words pointer rest
      else false

/-- The kind of a statement with neither a typedef word nor a record body. -/
def classifyDeclaration (code : List Token) : StatementKind :=
  if code.any (·.isPunct "=") then
    if isDeclaratorHead 0 false (code.takeWhile fun t => !t.isPunct "=") then .initialized
    else .expression
  else
    let head := code.takeWhile fun t => !t.isGroup .paren
    match code.dropWhile fun t => !t.isGroup .paren with
    | [] => if isDeclaratorHead 0 false code then .variable else .expression
    | group :: behind =>
        let hasBody := behind.any (·.isGroup .brace)
        if hasBody && isTypeHead 1 head then .function
        else if isPointerGroup group && isDeclaratorHead 0 false code then .variable
        else if !hasBody && isTypeHead 2 head then .prototype
        else .expression

/-- The kind of a statement with the given code tokens. -/
def classifyCode (code : List Token) : StatementKind :=
  match code with
  | [] => .blank
  | start :: rest =>
      if start.isWord "extern" && rest.head?.any (·.kind == .stringLiteral) &&
          code.any (·.isGroup .brace) then .linkage
      else if isWordAmong controlWords start then .control
      else
        let isTypedef := code.any (·.isWord "typedef")
        match afterRecordBody? code with
        | some behind => .record isTypedef (!isTypedef && behind.any isName)
        | none => if isTypedef then .typedef else classifyDeclaration code

/-- The kind of a statement. A directive is recognised by its first token that is not
trivia. -/
def classify (tokens : List Token) : StatementKind :=
  if (tokens.find? fun t => !t.kind.isTrivia).any (·.kind == .directive) then .directive
  else classifyCode (withoutAnnotations defaultAnnotations (TokenList.code tokens))

end CBoundary.Classification
