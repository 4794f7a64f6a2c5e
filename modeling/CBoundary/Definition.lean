import CBoundary.FunctionDecl
import CBoundary.RecordDecl
import CBoundary.Visibility

/-!
Entries of the symbol table, and how a further sighting of a name is folded into one. The
sighting of higher priority stands for both: a body counts most, then privacy, then the rank
of the file, and on a tie the earlier one stays. A name that any sighting says is private is
private. What the two disagree about is reported.
-/
namespace CBoundary

/-- What a definition names. -/
inductive DefinitionKind where
  | function
  | record
  | field
deriving DecidableEq, Repr, Inhabited

def DefinitionKind.label : DefinitionKind → String
  | .function => "function"
  | .record => "record"
  | .field => "field"

/-- The declaration behind a definition. -/
inductive Details where
  | function (declaration : FunctionDecl)
  | record (declaration : RecordDecl)
  | field (declaration : Variable)
deriving DecidableEq, Repr, Inhabited

namespace Details

def kind : Details → DefinitionKind
  | .function _ => .function
  | .record _ => .record
  | .field _ => .field

/-- Records always have a body, fields never do. -/
def hasBody : Details → Bool
  | .function f => f.hasBody
  | .record _ => true
  | .field _ => false

def preComment : Details → Option Token
  | .function f => f.preComment
  | .record r => r.preComment
  | .field v => v.preComment

def postComment : Details → Option Token
  | .function f => f.postComment
  | .record r => r.postComment
  | .field v => v.postComment

/-- The declaration as messages show it. -/
def shortRepr : Details → String
  | .function f =>
      TokenList.shortRepr f.typename ++ " " ++ f.name.text ++ "(" ++
        String.intercalate ", " f.signature ++ ")" ++
        (if f.hasBody then " \x7b...\x7d" else ";")
  | .record r =>
      r.kind.text ++ " " ++ r.displayName ++ " \x7b" ++ toString r.members.length ++
        " members\x7d"
  | .field v => TokenList.shortRepr v.typename ++ " " ++ v.name.text

/-- What two declarations of the same kind disagree about. -/
def conflicts : Details → Details → List String
  | .function f, .function g => f.conflicts g
  | .record r, .record s => r.toRecord.conflicts s.toRecord
  | .field v, .field w => v.conflicts w
  | _, _ => []

/-- Takes over what is missing from a declaration of the same kind. -/
def absorb : Details → Details → Details
  | .function f, .function g => .function (f.absorb g)
  | .record r, .record s => .record { r with toRecord := r.toRecord.absorb s.toRecord }
  | .field v, .field w => .field (v.absorb w)
  | d, _ => d

/-- Do two declarations agree in everything but positions? -/
def agrees : Details → Details → Bool
  | .function f, .function g => f.agrees g
  | .record r, .record s =>
      r.toRecord.agrees s.toRecord && r.nested.length == s.nested.length &&
        (r.nested.zip s.nested).all fun (a, b) => a.agrees b
  | .field v, .field w => v.agrees w
  | _, _ => false

end Details

/-- One entry of the symbol table. -/
structure Definition where
  name : String
  scope : Scope
  /-- Byte offset of the name in its file. -/
  offset : Nat
  module : String
  /-- Whether it is private, if any sighting said so. -/
  isPrivate : Option Bool
  details : Details
  /-- The comments in front of the sightings, in order. -/
  preComments : List Token
  /-- The comments behind the sightings, in order. -/
  postComments : List Token
deriving DecidableEq, Repr, Inhabited

namespace Definition

/-- The definition of a name as one sighting shows it. -/
def ofSighting (name : String) (scope : Scope) (offset : Nat) (visibility : Visibility)
    (details : Details) : Definition :=
  { name, scope, offset, module := visibility.module, isPrivate := visibility.isPrivate, details
    preComments := details.preComment.toList
    postComments := details.postComment.toList }

def kind (d : Definition) : DefinitionKind := d.details.kind

/-- Is it known to be private? What nothing is said about is public. -/
def isKnownPrivate (d : Definition) : Bool := d.isPrivate == some true

def priority (d : Definition) : Nat :=
  d.details.hasBody.toNat * 100 + d.isKnownPrivate.toNat * 10 + d.scope.file.priority

def location (d : Definition) : String := d.scope.location d.offset

/-- Location, kind, module and name, as shown above a conflict. -/
def conflictLocation (d : Definition) : String :=
  let module := if d.module == "" then "" else s!"[{d.module}] "
  s!"{d.location} {d.kind.label} {module}'{d.name}':"

/-- The definition as messages show it. -/
def shortRepr (d : Definition) : String :=
  let visibility := if d.isKnownPrivate then "private" else "public"
  s!"{d.name} ({d.kind.label}) {d.location} {d.module} {visibility} {d.details.shortRepr}"

/-- Two sightings, the one that stands for both first. -/
def ranked (d e : Definition) : Definition × Definition :=
  if d.priority < e.priority then (e, d) else (d, e)

/-- Privacy of two sightings together: private if either is, else what either says. -/
def joinPrivacy : Option Bool → Option Bool → Option Bool
  | some true, _ => some true
  | _, some true => some true
  | none, other => other
  | some false, _ => some false

/-- Folds a later sighting of the same name into a definition. -/
def merge (d e : Definition) : Definition :=
  let (winner, loser) := ranked d e
  { winner with
    isPrivate := joinPrivacy winner.isPrivate loser.isPrivate
    details := winner.details.absorb loser.details
    preComments := d.preComments ++ e.preComments
    postComments := d.postComments ++ e.postComments }

/-- The report of a disagreement between two definitions. -/
def conflictReport (category : Category) (what : String) (winner loser : Definition)
    (messages : List String) : Report :=
  Report.conflict (Categories.only category) winner.conflictLocation what loser.conflictLocation
    messages

/-- What there is to report when a later sighting is folded into a definition. -/
def mergeReports (d e : Definition) : List Report :=
  let (winner, loser) := ranked d e
  let kindReport :=
    if winner.kind == loser.kind then []
    else [conflictReport .kindMismatch "'kind'" winner loser
      [s!"kind mismatch for '{winner.name}': {winner.kind.label} != {loser.kind.label}",
        winner.shortRepr, loser.shortRepr]]
  let moduleReport :=
    if winner.module == loser.module then []
    else [conflictReport .moduleMismatch "'module'" winner loser
      [s!"module mismatch for {winner.kind.label} '{winner.name}': " ++
          s!"{winner.module} != {loser.module}",
        winner.shortRepr, loser.shortRepr]]
  let detailsReport :=
    match winner.details.conflicts loser.details with
    | [] => []
    | messages => [conflictReport .detailsMismatch "details" winner loser messages]
  kindReport ++ moduleReport ++ detailsReport

/-- Do two definitions agree, tokens being compared by their texts and all else fully? -/
def agrees (d e : Definition) : Bool :=
  d.name == e.name && d.scope == e.scope && d.offset == e.offset && d.module == e.module &&
    d.isPrivate == e.isPrivate && d.details.agrees e.details &&
    TokenList.agrees d.preComments e.preComments && TokenList.agrees d.postComments e.postComments

end Definition

end CBoundary
