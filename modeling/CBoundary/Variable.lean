import CBoundary.AdjacentComment
import CBoundary.Statement

/-!
Declarators and their types: fields, parameters, locals, globals and typedef names. A
declarator is read left to right up to its separator. What stands before the name is its
type; array bounds and function parameters are skipped, and an initializer or a bit width
ends the declarator. In a list of declarators only the first spells the type, so the type is
carried from one to the next while they end in a comma.
-/
namespace CBoundary

open Keyword

/-- One declarator with its type. -/
structure Variable where
  /-- Type tokens without qualifiers. -/
  typename : List Token
  name : Token
  preComment : Option Token
  postComment : Option Token
  /-- The separator behind the declarator, or empty. -/
  terminator : String
deriving DecidableEq, Repr, Inhabited

/-- What has been read of a declarator. -/
structure DeclaratorState where
  /-- The type and the name, as far as read. -/
  collected : List Token
  /-- The name found inside a pointer declarator. -/
  pointerName : Option Token
  /-- Whether the declarator goes on. -/
  collecting : Bool
deriving Inhabited

namespace DeclaratorState

def start : DeclaratorState := ⟨[], none, true⟩

/-- The last name inside a pointer declarator. -/
def nameInPointer? (group : Token) : Option Token :=
  group.interior?.bind fun inner => ((TokenStream.within inner).filter isName).getLast?

/-- Reads one more token; nothing if it cannot be part of a declarator. -/
def step (d : DeclaratorState) (t : Token) : Option DeclaratorState :=
  if !d.collecting || t.kind.isTrivia || t.kind == .directive then some d
  else if t.isGroup .paren then
    if d.pointerName.isSome then some { d with collecting := false }
    else if Classification.isPointerGroup t then
      (nameInPointer? t).map fun name => { d with pointerName := some name }
    else if d.collected.getLast?.any (·.kind == .word) then
      some { d with collected := d.collected ++ [t] }
    else some { d with collecting := false }
  else if t.isGroup .bracket then some d
  else if t.isPunct "=" || t.isPunct ":" then some { d with collecting := false }
  else if t.kind == .word || t.isPunct "*" then some { d with collected := d.collected ++ [t] }
  else none

/-- The type and the name. Without a pointer declarator the name is the last token collected
that is no parenthesized group. -/
def typeAndName? (d : DeclaratorState) : Option (List Token × Token) :=
  match d.pointerName with
  | some name => some (d.collected, name)
  | none =>
      match d.collected.reverse.dropWhile (·.isGroup .paren) with
      | [] => none
      | last :: before => if isName last then some (before.reverse, last) else none

end DeclaratorState

namespace Variable

/-- Reads one declarator; nothing if the tokens do not declare a name. -/
def ofTokens? (tokens : List Token) : Option Variable := do
  let (preComment, start) := AdjacentComment.leading tokens
  let body := tokens.drop start
  let state ← (body.takeWhile fun t => !t.isSeparator).foldlM DeclaratorState.step
    DeclaratorState.start
  let (typename, name) ← state.typeAndName?
  return {
    typename := withoutQualifiers typename
    name
    preComment
    postComment := AdjacentComment.trailing? start tokens
    terminator := ((body.find? Token.isSeparator).map Token.text).getD "" }

/-- The name that identifies the type. -/
def baseType (v : Variable) : String := Keyword.baseType v.typename

/-- Do two sightings agree in everything but positions? -/
def agrees (v w : Variable) : Bool :=
  TokenList.agrees v.typename w.typename && v.name.agrees w.name &&
    v.preComment.map Token.text == w.preComment.map Token.text &&
    v.postComment.map Token.text == w.postComment.map Token.text &&
    v.terminator == w.terminator

/-- What two sightings of a declaration disagree about. -/
def conflicts (v w : Variable) : List String :=
  (if TokenList.agrees v.typename w.typename then [] else
    [s!"variable type mismatch for {v.name.text}: {TokenList.shortRepr v.typename} != " ++
      TokenList.shortRepr w.typename]) ++
  (if v.name.agrees w.name then [] else
    [s!"variable name mismatch: {v.name.text} != {w.name.text}"])

/-- Takes over from a second sighting the comments that are missing in the first. -/
def absorb (v w : Variable) : Variable :=
  { v with
    preComment := v.preComment.or w.preComment
    postComment := v.postComment.or w.postComment }

end Variable

/-- The type that the declarators to come share, if a list of declarators is being read. -/
structure TypeCarry where
  carried : Option (List Token)
deriving DecidableEq, Repr, Inhabited

namespace TypeCarry

/-- No list is being read. -/
def idle : TypeCarry := ⟨none⟩

/-- The declarators to come have the given type. -/
def of (typename : List Token) : TypeCarry := ⟨some typename⟩

def isCarrying (c : TypeCarry) : Bool := c.carried.isSome

/-- Gives a declarator without type words the carried type, in front of its own stars. -/
def complete (c : TypeCarry) (v : Variable) : Variable :=
  if v.typename.any (·.kind == .word) then v
  else { v with typename := c.carried.getD [] ++ v.typename }

/-- What is carried past a declarator: its type without its own stars if a comma follows. -/
def after (v : Variable) : TypeCarry :=
  if v.terminator == "," then of (v.typename.filter fun t => !t.isPunct "*") else idle

/-- Reads a declarator and moves on; what is no declarator leaves the carried type alone. -/
def parse (c : TypeCarry) (tokens : List Token) : Option Variable × TypeCarry :=
  match Variable.ofTokens? tokens with
  | some v => (some (c.complete v), after (c.complete v))
  | none => (none, c)

/-- The declarators among a list of statements, in order. -/
def parseAll (c : TypeCarry) : List Statement → List Variable
  | [] => []
  | s :: rest => (c.parse s.tokens).1.toList ++ (c.parse s.tokens).2.parseAll rest

end TypeCarry

end CBoundary
