import CBoundary.FileAccess

/-!
A file tree held in memory, on which the checker runs as it does on a disk. A path is followed
name by name, from the root if it is absolute and else from the working directory: a single dot
stays, two dots go back, though not past the root, and anything behind a file is refused. Where
something is made or removed, the slashes at the end of its path do not count, and dots at the
end name nothing that could be made or removed. The clock stands still, but files may be given
another time of change.
-/
namespace CBoundary

/-- A file, or a directory with what stands in it under each name. -/
inductive FileTree.Node where
  | file (content : Bytes) (modified : Timestamp)
  | directory (entries : List (String × FileTree.Node))
deriving Inhabited

/-- The names that lead from the root to a place. -/
abbrev FileTree.Place := List String

/-- What is below the root, and where relative paths start. -/
structure FileTree where
  root : FileTree.Node
  workingDirectory : FileTree.Place
  now : Timestamp

namespace FileTree

namespace Node

def isDirectory : Node → Bool
  | .file _ _ => false
  | .directory _ => true

/-- A directory with another entry under a name, or without one there. -/
def setEntry (name : String) (node? : Option Node) : Node → Node
  | .file content time => .file content time
  | .directory entries =>
      .directory (node?.toList.map (name, ·) ++ entries.filter (·.1 != name))

/-- Changes what is at a place below a node, if anything is there. -/
def modifyAt (f : Node → Node) : Place → Node → Node
  | [], node => f node
  | _ :: _, .file content time => .file content time
  | name :: place, .directory entries =>
      .directory (entries.map fun (other, node) =>
        (other, if other == name then modifyAt f place node else node))

mutual

/-- The files at or below a node that a path leads to. -/
def files (path : SourcePath) : Node → List SourcePath
  | .file _ _ => [path]
  | .directory entries => filesAmong path entries

/-- The files among the entries of a directory that a path leads to, and those below them. -/
def filesAmong (path : SourcePath) : List (String × Node) → List SourcePath
  | [] => []
  | (name, node) :: rest => files (path.join ⟨name⟩) node ++ filesAmong path rest

end

end Node

/-- A tree of the working directory and those around it, all else empty. -/
def empty (workingDirectory : Place) (now : Timestamp) : FileTree :=
  { root := workingDirectory.foldr (fun name node => .directory [(name, node)]) (.directory [])
    workingDirectory, now }

/-- The tree with something else at a place, or with nothing there. The root stays. -/
def put (t : FileTree) (place : Place) (node? : Option Node) : FileTree :=
  match place.getLast? with
  | none => t
  | some name => { t with root := t.root.modifyAt (·.setEntry name node?) place.dropLast }

/-- The tree without anything below a place. -/
def emptied (t : FileTree) (place : Place) : FileTree :=
  { t with root := t.root.modifyAt (fun _ => .directory []) place }

/-- The longest name that a file can have, in bytes. -/
def nameLimit : Nat := 255

/-- The names on a way from the root, innermost first, each with what is there. -/
abbrev Trail := List (String × Option Node)

namespace Trail

def place (trail : Trail) : Place := (trail.map Prod.fst).reverse

/-- What the way leads to. -/
def node? (root : Node) : Trail → Option Node
  | [] => some root
  | (_, node?) :: _ => node?

end Trail

/-- Follows the parts of a path. The last name need not be there. -/
def follow (t : FileTree) (trail : Trail) : List String → Except IoError Trail
  | [] => .ok trail
  | part :: rest =>
      match trail.node? t.root with
      | none => .error .missing
      | some (.file _ _) => .error .notDirectory
      | some (.directory entries) =>
          if part == "" || part == "." then follow t trail rest
          else if part == ".." then follow t trail.tail rest
          else if nameLimit < part.utf8ByteSize then .error .nameTooLong
          else follow t ((part, entries.lookup part) :: trail) rest

/-- The parts of a path, if it is one that can be followed. -/
def partsOf (path : SourcePath) : Except IoError (List String) :=
  let text := path.text.toList
  if text.contains '\x00' then .error .zeroInPath
  else if FileAccess.pathLimit < path.text.utf8ByteSize then .error .nameTooLong
  else if text.isEmpty then .error .missing
  else .ok ((SourcePath.splitAtSlashes text).map String.ofList)

/-- The names before the first part of a path. -/
def origin (t : FileTree) (path : SourcePath) : Place :=
  if path.isAbsolute then [] else t.workingDirectory

/-- The place that a path leads to and what is there. -/
def find (t : FileTree) (path : SourcePath) : Except IoError (Place × Node) := do
  let trail ← t.follow [] (t.origin path ++ (← partsOf path))
  match trail.node? t.root with
  | some node => return (trail.place, node)
  | none => .error .missing

/-- The parts without those that slashes at the end leave. -/
def withoutEnd (parts : List String) : List String :=
  (parts.reverse.dropWhile (· == "")).reverse

/-- The place that a path names, what is there, if anything, and the last part of the path, if
it has any. Slashes at the end do not count. -/
def locate (t : FileTree) (path : SourcePath) :
    Except IoError (Place × Option Node × Option String) := do
  let parts := withoutEnd (← partsOf path)
  let trail ← t.follow [] (t.origin path ++ parts)
  return (trail.place, trail.node? t.root, parts.getLast?)

def read (t : FileTree) (path : SourcePath) : Except IoError Bytes := do
  match ← t.find path with
  | (_, .file content _) => return content
  | (_, .directory _) => .error .isDirectory

def entries (t : FileTree) (path : SourcePath) : Except IoError (List DirectoryEntry) := do
  match ← t.find path with
  | (_, .file _ _) => .error .notDirectory
  | (_, .directory entries) => return entries.map fun (name, node) => ⟨name, node.isDirectory⟩

/-- When a file was last changed. Directories always count as changed now. -/
def modified (t : FileTree) (path : SourcePath) : Except IoError Timestamp := do
  match ← t.find path with
  | (_, .file _ time) => return time
  | (_, .directory _) => return t.now

def isDirectory (t : FileTree) (path : SourcePath) : Bool :=
  match t.find path with
  | .ok (_, node) => node.isDirectory
  | .error _ => false

/-- The files below a directory, in the order of the texts of their paths. -/
def filesBelow (t : FileTree) (path : SourcePath) : List SourcePath :=
  match t.find path with
  | .ok (_, .directory entries) =>
      (Node.filesAmong path entries).mergeSort fun a b => decide (a.text ≤ b.text)
  | _ => []

def makeDirectory (t : FileTree) (path : SourcePath) : Except IoError FileTree := do
  match ← t.locate path with
  | (_, some _, _) => .error .occupied
  | (place, none, _) => return t.put place (some (.directory []))

/-- Puts a file in place. What stood there before must be a file, and a slash at the end of the
path asks for a directory. -/
def write (t : FileTree) (path : SourcePath) (content : Bytes) : Except IoError FileTree := do
  let (place, node?, _) ← t.locate path
  if node?.any Node.isDirectory || path.text.endsWith "/" then .error .isDirectory
  else return t.put place (some (.file content t.now))

/-- Sets the time of change of a file. -/
def touch (t : FileTree) (path : SourcePath) (time : Timestamp) : Except IoError FileTree := do
  match ← t.find path with
  | (place, .file content _) => return t.put place (some (.file content time))
  | (_, .directory _) => .error .isDirectory

def removeFile (t : FileTree) (path : SourcePath) : Except IoError FileTree := do
  match ← t.find path with
  | (place, .file _ _) => return t.put place none
  | (_, .directory _) => .error .isDirectory

/-- Removes an empty directory. The path has to end in its name, which dots are not. -/
def removeDirectory (t : FileTree) (path : SourcePath) : Except IoError FileTree := do
  match ← t.locate path with
  | (_, _, none) => .error (.system "Device or resource busy" 16)
  | (_, _, some ".") => .error (.system "Invalid argument" 22)
  | (_, _, some "..") => .error (.system "Directory not empty" 39)
  | (_, none, some _) => .error .missing
  | (_, some (.file _ _), some _) => .error .notDirectory
  | (place, some (.directory []), some _) => return t.put place none
  | (_, some (.directory (_ :: _)), some _) => .error (.system "Directory not empty" 39)

/-- Runs a change of the tree. One that fails leaves it as it was. -/
def change (step : FileTree → Except IoError FileTree) : StateM FileTree (Except IoError Unit) := do
  match step (← get) with
  | .ok t => set t; return .ok ()
  | .error e => return .error e

/-- Removes all that is below a directory, then the directory. What was below it is gone even
where the directory stays: where the path ends in dots, or, which is no failure, where it led
through what was below. -/
def removeTree (path : SourcePath) : StateM FileTree (Except IoError Unit) := do
  match (← get).find path with
  | .error e => return .error e
  | .ok (_, .file _ _) => return .error .notDirectory
  | .ok (place, .directory _) =>
      modify (·.emptied place)
      match ← change (·.removeDirectory path) with
      | .error .missing => return .ok ()
      | removed => return removed

/-- Removes a file, or a directory with all that is below it. -/
def remove (path : SourcePath) : StateM FileTree (Except IoError Unit) := do
  if (← get).isDirectory path then removeTree path else change (·.removeFile path)

instance : FileAccess (StateM FileTree) where
  read path := do return (← get).read path
  entries path := do return (← get).entries path
  modified path := do return (← get).modified path
  isDirectory path := do return (← get).isDirectory path
  makeDirectory path := change (·.makeDirectory path)
  write path content := change (·.write path content)
  removeTree := removeTree

end FileTree

end CBoundary
