/-!
What a statement is, syntactically. The kinds exclude one another; each shows a fixed set of
facets, and messages name a statement by its facets.
-/
namespace CBoundary

/-- One aspect of a statement, in the order in which messages list them. -/
inductive Facet where
  | preprocessor
  | linkage
  | typedef
  | record
  | function
  | functionBody
  | declaration
  | initialization
  | expression
  | control
deriving DecidableEq, Repr, Inhabited

/-- The name of a facet in messages. -/
def Facet.label : Facet → String
  | .preprocessor => "PREPROC"
  | .linkage => "EXTERN_C"
  | .typedef => "TYPEDEF"
  | .record => "RECORD"
  | .function => "FUNCTION"
  | .functionBody => "FUNCTION_DEF"
  | .declaration => "DECL"
  | .initialization => "INITIALIZATION"
  | .expression => "EXPRESSION"
  | .control => "STATEMENT"

/-- The syntactic kind of a statement. -/
inductive StatementKind where
  /-- No code at all. -/
  | blank
  /-- A directive line. -/
  | directive
  /-- A brace group behind a linkage specification. -/
  | linkage
  /-- Control flow. -/
  | control
  /-- A record with its body; it may bind typedef names or declare variables. -/
  | record (isTypedef declares : Bool)
  /-- A typedef of a type that is defined elsewhere. -/
  | typedef
  /-- A declaration with an initializer. -/
  | initialized
  /-- A function with its body. -/
  | function
  /-- A function without a body. -/
  | prototype
  /-- A declaration of a variable. -/
  | variable
  /-- Anything else. -/
  | expression
deriving DecidableEq, Repr, Inhabited

namespace StatementKind

/-- The facets a kind shows, in order. -/
def facets : StatementKind → List Facet
  | .blank => []
  | .directive => [.preprocessor]
  | .linkage => [.linkage]
  | .control => [.control]
  | .record isTypedef declares =>
      (if isTypedef then [.typedef] else []) ++ .record ::
        (if declares then [.declaration] else [])
  | .typedef => [.typedef, .declaration]
  | .initialized => [.declaration, .initialization]
  | .function => [.function, .functionBody]
  | .prototype => [.function, .declaration]
  | .variable => [.declaration]
  | .expression => [.expression]

/-- Is it a record with its body? -/
def isRecord : StatementKind → Bool
  | .record _ _ => true
  | _ => false

/-- Is it a prototype or a function with its body? -/
def isFunction : StatementKind → Bool
  | .function | .prototype => true
  | _ => false

/-- Does it name types or variables and nothing else? -/
def isPlainDeclaration : StatementKind → Bool
  | .typedef | .initialized | .variable => true
  | _ => false

/-- Does it run code rather than declare something? -/
def isExecutable : StatementKind → Bool
  | .control | .expression => true
  | _ => false

/-- The facets as messages show them. -/
def render (kind : StatementKind) : String :=
  match kind.facets with
  | [] => "StatementKind(0x0)"
  | facets => "StatementKind(" ++ String.intercalate " | " (facets.map Facet.label) ++ ")"

end StatementKind

end CBoundary
