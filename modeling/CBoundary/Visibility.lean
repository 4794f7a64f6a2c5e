import CBoundary.Scope
import CBoundary.Warning

/-!
Whether a declaration is private, and which module it belongs to. An annotation in the
comment before the declaration decides, or else one in the comment behind it. Without an
annotation the naming convention decides for names of records and members, and without either
nothing is said and the module is that of the file. An annotation that names no module leaves
the module to the naming convention.
-/
namespace CBoundary

/-- Whether a declaration is private, if anything says so, and its module. -/
structure Visibility where
  isPrivate : Option Bool
  module : String
deriving DecidableEq, Repr, Inhabited

/-- An annotation: an explicit statement in a comment. -/
structure Mark where
  isPrivate : Bool
  module : Option String
deriving DecidableEq, Repr, Inhabited

namespace Mark

/-- An ASCII letter, a digit or an underscore. -/
def isTagChar (c : Char) : Bool := c.isAlphanum || c == '_'

/-- The module named in parentheses at the start of a text. -/
def module? : List Char → Option String
  | '(' :: rest =>
      let tag := rest.takeWhile isTagChar
      if !tag.isEmpty && (rest.dropWhile isTagChar).head? == some ')' then
        some (String.ofList tag)
      else none
  | _ => none

/-- The annotation whose keyword starts the text; no tag character may follow the keyword. -/
def atKeyword? (text : List Char) : Option Mark :=
  let read (keyword : String) (isPrivate : Bool) : Option Mark :=
    match NamingConvention.behind? keyword.toList text with
    | none => none
    | some behind =>
        if behind.head?.any isTagChar then none else some ⟨isPrivate, module? behind⟩
  (read "public" false).or (read "private" true)

/-- The first annotation in a comment. -/
def find? : List Char → Option Mark
  | [] => none
  | c :: rest => if c = '#' then (atKeyword? rest).or (find? rest) else find? rest

/-- The first annotation in a comment, if there is a comment. -/
def ofComment? (comment : Option Token) : Option Mark :=
  comment.bind fun t => find? t.chars

end Mark

namespace Visibility

/-- The annotation that decides. -/
def mark? (preComment postComment : Option Token) : Option Mark :=
  (Mark.ofComment? preComment).or (Mark.ofComment? postComment)

/-- What the naming convention says about a name, where it applies. -/
def naming? (c : ScanContext) (useNaming : Bool) (name : String) : Option (Bool × Option String) :=
  if useNaming then c.config.naming.classify c.config.modules name else none

/-- The visibility of a name declared with the given comments. -/
def resolve (c : ScanContext) (preComment postComment : Option Token) (name : String)
    (useNaming : Bool) : Visibility :=
  let naming := naming? c useNaming name
  match mark? preComment postComment with
  | some a => ⟨some a.isPrivate, (a.module.or (naming.bind Prod.snd)).getD c.module⟩
  | none =>
      match naming with
      | some (isPrivate, module) => ⟨some isPrivate, module.getD c.module⟩
      | none => ⟨none, c.module⟩

/-- What there is to report about a name declared at an offset: an annotation and a name that
imply different modules. -/
def reports (c : ScanContext) (preComment postComment : Option Token) (name : String)
    (offset : Nat) (useNaming : Bool) : List Report :=
  let explicit := (mark? preComment postComment).bind Mark.module
  match explicit, (naming? c useNaming name).bind Prod.snd with
  | some explicit, some implied =>
      if explicit == implied then []
      else [Report.warning (Categories.only .ambiguousVisibility) (some (c.location offset))
        (s!"'{name}' is annotated for module '{explicit}' but its name implies module " ++
          s!"'{implied}'")]
  | _, _ => []

end Visibility

end CBoundary
