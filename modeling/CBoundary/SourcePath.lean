/-!
Paths as text and as lists of components. Repeated separators, a separator at the end and
inner components of a single dot do not count as components; a single dot at the start does,
and two dots always do. Paths are compared by their components, but keep the text they were
written with.
-/
namespace CBoundary

/-- A path, as it was written. -/
structure SourcePath where
  text : String
deriving DecidableEq, Repr, Inhabited

namespace SourcePath

/-- One component of a path. -/
inductive Component where
  /-- The separator at the start of an absolute path. -/
  | root
  /-- A single dot at the start of a path. -/
  | here
  /-- Two dots. -/
  | up
  | name (text : String)
deriving DecidableEq, Repr, Inhabited

/-- Position of a kind of component in the order of paths. -/
def Component.rank : Component → Nat
  | .root => 0
  | .here => 1
  | .up => 2
  | .name _ => 3

protected def Component.compare : Component → Component → Ordering
  | .name a, .name b => compare a b
  | a, b => compare a.rank b.rank

/-- The parts of a text between its slashes. -/
def splitAtSlashes : List Char → List (List Char)
  | [] => [[]]
  | c :: rest =>
      if c = '/' then [] :: splitAtSlashes rest
      else match splitAtSlashes rest with
        | part :: parts => (c :: part) :: parts
        | [] => [[c]]

/-- The component that a part stands for, unless it does not count. -/
def componentOf? (part : List Char) : Option Component :=
  if part.isEmpty || part == ['.'] then none
  else if part == ['.', '.'] then some .up
  else some (.name (String.ofList part))

def isAbsolute (p : SourcePath) : Bool := p.text.toList.head? == some '/'

/-- The components of a path. -/
def components (p : SourcePath) : List Component :=
  let parts := splitAtSlashes p.text.toList
  let start := if p.isAbsolute then [.root] else if parts.head? == some ['.'] then [.here] else []
  start ++ parts.filterMap componentOf?

/-- The order of paths. -/
protected def compare (p q : SourcePath) : Ordering :=
  go p.components q.components
where
  go : List Component → List Component → Ordering
    | [], [] => .eq
    | [], _ :: _ => .lt
    | _ :: _, [] => .gt
    | a :: as, b :: bs => (a.compare b).then (go as bs)

/-- Puts a path behind another. An absolute path replaces the one before it. -/
def join (p q : SourcePath) : SourcePath :=
  if q.isAbsolute then q
  else
    let gap := match p.text.toList.getLast? with
      | none | some '/' => ""
      | some _ => "/"
    ⟨p.text ++ gap ++ q.text⟩

/-- Does the path start with all components of another? -/
def startsWith (p start : SourcePath) : Bool := start.components.isPrefixOf p.components

/-- The text without leading parts that do not count. -/
def trimLeft (text : List Char) : List Char :=
  match text with
  | '/' :: rest => trimLeft rest
  | ['.'] => []
  | '.' :: '/' :: rest => trimLeft rest
  | _ => text

/-- The text without trailing parts that do not count; `least` characters at the start
stay. -/
def trimRight (least : Nat) (text : List Char) : List Char :=
  text.take least ++ (go (text.drop least).reverse).reverse
where
  go (reversed : List Char) : List Char :=
    match reversed with
    | '/' :: rest => go rest
    | ['.'] => []
    | '.' :: '/' :: rest => go ('/' :: rest)
    | _ => reversed
  termination_by reversed.length

/-- How many characters a slash or a single dot takes that is a component at the start of the
path. -/
def leadLength (p : SourcePath) : Nat :=
  match p.text.toList with
  | '/' :: _ | ['.'] | '.' :: '/' :: _ => 1
  | _ => 0

/-- The path without its last component and without what does not count before that. The rest
of the text stays as it was written. -/
def parent (p : SourcePath) : SourcePath :=
  let least := p.leadLength
  let text := trimRight least p.text.toList
  let around := ((text.drop least).reverse.dropWhile (· != '/')).reverse
  if text.length ≤ least then ⟨""⟩
  else ⟨String.ofList (trimRight least (text.take least ++ around))⟩

/-- The text behind the part up to the first slash. -/
def behindPart (text : List Char) : List Char := (text.dropWhile (· != '/')).drop 1

theorem length_behindPart_lt (c : Char) (rest : List Char) :
    (behindPart (c :: rest)).length < (c :: rest).length := by
  have h := (List.dropWhile_suffix (l := c :: rest) (· != '/')).length_le
  simp only [behindPart, List.length_drop, List.length_cons] at h ⊢
  omega

/-- The text behind the first `count` components. -/
def dropComponents (count : Nat) (text : List Char) : List Char :=
  match count, text with
  | 0, text => text
  | _ + 1, [] => []
  | count + 1, c :: rest =>
      if (componentOf? ((c :: rest).takeWhile (· != '/'))).isSome then
        dropComponents count (behindPart (c :: rest))
      else dropComponents (count + 1) (behindPart (c :: rest))
termination_by text.length
decreasing_by all_goals exact length_behindPart_lt c rest

/-- The path behind the components of `start`, if it starts with all of them. The text in
between its components stays as it was written. -/
def stripStart? (p start : SourcePath) : Option SourcePath :=
  if p.startsWith start then
    let text := p.text.toList
    let behind :=
      match start.components with
      | [] => trimRight p.leadLength text
      | .root :: more => trimRight 0 (trimLeft (dropComponents more.length (text.drop 1)))
      | .here :: more => trimRight 0 (trimLeft (dropComponents more.length (text.drop 1)))
      | more => trimRight 0 (trimLeft (dropComponents more.length text))
    some ⟨String.ofList behind⟩
  else none

/-- The last component, if it is a name. -/
def fileName? (p : SourcePath) : Option String :=
  match p.components.getLast? with
  | some (.name text) => some text
  | _ => none

/-- What follows the last dot of the file name. A dot at the start of the name does not
count. -/
def extension? (p : SourcePath) : Option String :=
  p.fileName?.bind fun name =>
    match name.toList.reverse.dropWhile (· != '.') with
    | [] | ['.'] => none
    | _ => some (String.ofList (name.toList.reverse.takeWhile (· != '.')).reverse)

end SourcePath

end CBoundary
