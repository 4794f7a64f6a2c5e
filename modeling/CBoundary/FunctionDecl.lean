import CBoundary.Variable

/-!
Prototypes and definitions of functions. The first parenthesized group holds the parameters,
the code token in front of it is the name, and what stands before the name is the return
type. Annotation words are removed first, each with the parenthesized group behind it. A
prototype and a definition are compared by their signatures, which leave parameter names out.
-/
namespace CBoundary

open Keyword

/-- The parts of a prototype or definition. -/
structure FunctionDecl where
  /-- Return type tokens without qualifiers. -/
  typename : List Token
  name : Token
  /-- The inside of the parameter list. -/
  parameters : Token
  /-- The inside of the body of a definition. -/
  body : Option Token
  preComment : Option Token
  postComment : Option Token
deriving DecidableEq, Repr, Inhabited

namespace FunctionDecl

/-- The tokens without annotation words and the groups behind them. `skipping` holds right
after an annotation word, where spaces are removed too. -/
def withoutAnnotations (annotations : List String) (skipping : Bool) :
    List Token → List Token
  | [] => []
  | t :: rest =>
      if skipping && t.kind.isSpace then withoutAnnotations annotations true rest
      else if skipping && t.isGroup .paren then withoutAnnotations annotations false rest
      else if isWordAmong annotations t then withoutAnnotations annotations true rest
      else t :: withoutAnnotations annotations false rest

/-- Reads a function off its tokens; nothing if they have no parameter list or no name in
front of it. -/
def ofTokens? (annotations : List String) (tokens : List Token) : Option FunctionDecl := do
  let tokens := withoutAnnotations annotations false tokens
  let (preComment, start) := AdjacentComment.leading tokens
  let isParameterList (t : Token) : Bool := t.isGroup .paren
  let behind := (tokens.drop start).dropWhile fun t => !isParameterList t
  let parameters ← behind.head?.bind Token.interior?
  let head := TokenList.code ((tokens.drop start).takeWhile fun t => !isParameterList t)
  let name ← head.getLast?.filter isName
  return {
    typename := withoutQualifiers head.dropLast
    name
    parameters
    body := (behind.tail.find? (·.isGroup .brace)).bind Token.interior?
    preComment
    postComment := AdjacentComment.trailing? start tokens }

/-- Reads a function off a statement, with the annotation words that every project has. -/
def ofStatement? (s : Statement) : Option FunctionDecl := ofTokens? defaultAnnotations s.tokens

def hasBody (f : FunctionDecl) : Bool := f.body.isSome

/-- The declared parameters; a parameter without a name is none. -/
def parameterVariables (f : FunctionDecl) : List Variable :=
  TypeCarry.idle.parseAll (Statement.within f.parameters)

/-- The variables declared by the leading statements of a body. Reading stops at the first
statement that runs code, unless a list of declarators is being read. -/
def leadingVariables (carry : TypeCarry) : List Statement → List Variable
  | [] => []
  | s :: rest =>
      if !carry.isCarrying && s.kind.isExecutable then []
      else if carry.isCarrying || s.kind.isPlainDeclaration then
        (carry.parse s.tokens).1.toList ++ leadingVariables (carry.parse s.tokens).2 rest
      else leadingVariables TypeCarry.idle rest

/-- The variables declared at the top of the body. -/
def localVariables (f : FunctionDecl) : List Variable :=
  (f.body.map fun body => leadingVariables TypeCarry.idle (Statement.within body)).getD []

/-- The type of one parameter: its code without qualifiers, and without the name at the end
if at least one other word is left. -/
def parameterType (s : Statement) : String :=
  let code := withoutQualifiers (TokenList.code s.tokens)
  TokenList.shortRepr
    (if 2 ≤ code.countP (·.kind == .word) && code.getLast?.any isName then code.dropLast
     else code)

/-- The parameter types. A lone `void` means no parameters. -/
def signature (f : FunctionDecl) : List String :=
  let types := ((Statement.within f.parameters).map parameterType).filter (· != "")
  if types == ["void"] then [] else types

/-- Do two sightings agree in everything but positions? -/
def agrees (f g : FunctionDecl) : Bool :=
  TokenList.agrees f.typename g.typename && f.name.agrees g.name &&
    f.parameters.agrees g.parameters && f.body.map Token.text == g.body.map Token.text &&
    f.preComment.map Token.text == g.preComment.map Token.text &&
    f.postComment.map Token.text == g.postComment.map Token.text

/-- Do both sightings have a body, and different ones? -/
def bodiesDiffer (f g : FunctionDecl) : Bool :=
  match f.body, g.body with
  | some body, some other => !body.agrees other
  | _, _ => false

/-- What two sightings of a function disagree about. -/
def conflicts (f g : FunctionDecl) : List String :=
  (if TokenList.agrees f.typename g.typename then [] else
    [s!"function return type mismatch for {f.name.text}: {TokenList.shortRepr f.typename} != " ++
      TokenList.shortRepr g.typename]) ++
  (if f.name.agrees g.name then [] else
    [s!"function name mismatch: {f.name.text} != {g.name.text}"]) ++
  (if f.signature == g.signature then [] else
    [s!"function args mismatch for {f.name.text}: (" ++ String.intercalate ", " f.signature ++
      ") != (" ++ String.intercalate ", " g.signature ++ ")"]) ++
  (if f.bodiesDiffer g then [s!"function redefinition: {f.name.text}"] else [])

/-- Takes over from a second sighting the body and the comments that are missing in the
first. -/
def absorb (f g : FunctionDecl) : FunctionDecl :=
  { f with
    body := f.body.or g.body
    preComment := f.preComment.or g.preComment
    postComment := f.postComment.or g.postComment }

end FunctionDecl

end CBoundary
