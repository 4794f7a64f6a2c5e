import CBoundary.AdjacentComment
import CBoundary.CommentBlanking
import CBoundary.Statement

/-!
Macro definitions. A definition takes parameters only if an opening parenthesis follows its
name directly. Its body is read with line continuations and comments blanked out and white
space at both ends removed; blanking keeps every byte in its place, so the range of the body
stays valid. A parameter that ends in three dots collects all surplus arguments.
-/
namespace CBoundary

open CharacterClass TextPosition

/-- A macro definition. -/
structure MacroDefinition where
  name : Token
  /-- The parameters, or nothing for a macro that takes no argument list. -/
  parameters : Option (List Token)
  /-- The body, or nothing if it is empty. -/
  body : Option Token
  preComment : Option Token
  /-- Does the last parameter collect all surplus arguments? -/
  isVariadic : Bool
deriving DecidableEq, Repr, Inhabited

namespace MacroDefinition

/-- The name of a parameter that is written as three dots and nothing else. -/
def variadicName : String := "__VA_ARGS__"

/-- The pieces of a text between its commas. -/
def splitAtCommas : List Char → List (List Char)
  | [] => [[]]
  | c :: rest =>
      if c = ',' then [] :: splitAtCommas rest
      else match splitAtCommas rest with
        | piece :: pieces => (c :: piece) :: pieces
        | [] => [[c]]

/-- The text without the three dots at its end, if it ends in them. -/
def withoutDots? (text : List Char) : Option (List Char) :=
  match text.reverse with
  | '.' :: '.' :: '.' :: rest => some rest.reverse
  | _ => none

/-- One parameter, read from a piece that starts at byte `offset`, and whether it collects
all surplus arguments. -/
def parameterOf (index offset : Nat) (piece : List Char) : Token × Bool :=
  let start := offset + (byteLength piece - byteLength (trimStart piece))
  let written := trim piece
  let token (name : List Char) : Token :=
    ⟨index, ⟨start, start + byteLength name⟩, .word, String.ofList name⟩
  match withoutDots? written with
  | none => (token written, false)
  | some stem =>
      match trimEnd stem with
      | [] => (⟨index, ⟨start, start + 3⟩, .word, variadicName⟩, true)
      | name => (token name, true)

/-- The parameters in the pieces of a list, the first of which starts at byte `offset`. -/
def parametersFrom (index offset : Nat) : List (List Char) → List (Token × Bool)
  | [] => []
  | piece :: rest =>
      parameterOf index offset piece ::
        parametersFrom (index + 1) (offset + byteLength piece + 1) rest

/-- The parameters in the inside of a parameter list that starts at byte `offset`, and
whether one of them collects all surplus arguments. -/
def readParameters (offset : Nat) (inside : List Char) : List Token × Bool :=
  if (trim inside).isEmpty then ([], false)
  else
    let parameters := parametersFrom 0 offset (splitAtCommas inside)
    (parameters.map Prod.fst, parameters.any Prod.snd)

/-- The text with each line continuation replaced by as many spaces. -/
def joinLines : List Char → List Char
  | '\\' :: '\x0d' :: '\n' :: rest => ' ' :: ' ' :: ' ' :: joinLines rest
  | '\\' :: '\n' :: rest => ' ' :: ' ' :: joinLines rest
  | c :: rest => c :: joinLines rest
  | [] => []

/-- The body in a text that starts at byte `offset`, unless nothing but blanks is left of
it. -/
def readBody (offset : Nat) (text : List Char) : Option Token :=
  let cleaned := CommentBlanking.blankChars (joinLines text)
  let body := trim cleaned
  if body.isEmpty then none
  else
    let start := offset + (byteLength cleaned - byteLength (trimStart cleaned))
    some ⟨0, ⟨start, start + byteLength body⟩, .directive, String.ofList body⟩

/-- What follows the word `define` in the text of a directive, if the directive starts with
it and blanks follow. -/
def afterDefine? : List Char → Option (List Char)
  | '#' :: rest =>
      match rest.dropWhile isBlank with
      | 'd' :: 'e' :: 'f' :: 'i' :: 'n' :: 'e' :: c :: behind =>
          if isBlank c then some (behind.dropWhile isBlank) else none
      | _ => none
  | _ => none

/-- Reads a definition off a directive; nothing if the directive defines no name or does not
close its parameter list. -/
def ofDirective? (directive : Token) : Option MacroDefinition := do
  let text := directive.chars
  let position (suffix : List Char) : Nat :=
    directive.span.start + (byteLength text - byteLength suffix)
  let atName ← afterDefine? text
  let name := atName.takeWhile isWordChar
  let behindName := atName.dropWhile isWordChar
  if name.isEmpty || name.head?.any Char.isDigit then none
  else
    let nameToken : Token :=
      ⟨0, ⟨position atName, position behindName⟩, .word, String.ofList name⟩
    match behindName with
    | '(' :: list =>
        if list.contains ')' then
          let (parameters, isVariadic) :=
            readParameters (position list) (list.takeWhile (· != ')'))
          let behind := (list.dropWhile (· != ')')).tail
          return ⟨nameToken, some parameters, readBody (position behind) behind, none, isVariadic⟩
        else none
    | _ => return ⟨nameToken, none, readBody (position behindName) behindName, none, false⟩

/-- Reads a definition off a statement, together with the comment in front of it. -/
def ofStatement? (s : Statement) : Option MacroDefinition := do
  let (preComment, start) := AdjacentComment.leading s.tokens
  let directive ← ((s.tokens.drop start).find? fun t => !t.kind.isSpace).filter
    (·.kind == .directive)
  let definition ← ofDirective? directive
  return { definition with preComment }

/-- A token with the text of `t` that comes from no file. -/
def unplaced (t : Token) : Token := { t with span := Span.nowhere }

/-- A definition that comes from no file. -/
def make (name : String) (parameters : Option (List String)) (body : String) :
    MacroDefinition :=
  let read := parameters.map fun names =>
    readParameters 0 (String.intercalate "," names).toList
  { name := ⟨0, Span.nowhere, .word, name⟩
    parameters := read.map fun (tokens, _) => tokens.map unplaced
    body := (readBody 0 body.toList).map unplaced
    preComment := none
    isVariadic := (read.map Prod.snd).getD false }

/-- Does the body scan without unknown characters? Other bodies are never substituted into. -/
def isWellFormed (d : MacroDefinition) : Bool :=
  (d.body.map fun body => TokenStream.isWellFormed body.text).getD true

def isFunctionLike (d : MacroDefinition) : Bool := d.parameters.isSome

/-- Do two definitions agree in everything but positions? -/
def agrees (d e : MacroDefinition) : Bool :=
  d.name.agrees e.name && d.parameters.map TokenList.texts == e.parameters.map TokenList.texts &&
    d.body.map Token.text == e.body.map Token.text &&
    d.preComment.map Token.text == e.preComment.map Token.text && d.isVariadic == e.isVariadic

/-- The parameter list as messages show it. -/
def renderParameters : Option (List Token) → String
  | some parameters => "(" ++ String.intercalate ", " (TokenList.texts parameters) ++ ")"
  | none => "<object-like>"

/-- What two definitions of a name disagree about. -/
def conflicts (d e : MacroDefinition) : List String :=
  (if d.name.agrees e.name then [] else
    [s!"macro name mismatch for {d.name.text}: {d.name.text} != {e.name.text}"]) ++
  (if d.parameters.map TokenList.texts == e.parameters.map TokenList.texts then [] else
    [s!"macro args mismatch for {d.name.text}: " ++ renderParameters d.parameters ++ " != " ++
      renderParameters e.parameters]) ++
  (if d.body.map Token.text == e.body.map Token.text then [] else
    [s!"macro redefinition: {d.name.text}"])

/-- Keeps the first definition; only a missing comment is taken over from the second. -/
def absorb (d e : MacroDefinition) : MacroDefinition :=
  { d with preComment := d.preComment.or e.preComment }

end MacroDefinition

end CBoundary
