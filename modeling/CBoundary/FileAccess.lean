import CBoundary.SourcePath

/-!
What the checker asks of a file system: to read files and directories, to ask for times of
change, and to write and remove the files of its cache. The operations work in any monad, so
that the same program runs on the disk and on a file tree held in memory. They give back why
they failed, never an exception. Relative paths start at the working directory.
-/
namespace CBoundary

/-- The content of a file. -/
abbrev Bytes := List UInt8

/-- The text that bytes stand for, if they are valid UTF-8. -/
def Bytes.text? (bytes : Bytes) : Option String :=
  String.fromUTF8? ⟨bytes.toArray⟩

/-- The UTF-8 form of a text. -/
def Bytes.ofText (text : String) : Bytes := text.toUTF8.data.toList

theorem Bytes.text?_ofText (text : String) : (Bytes.ofText text).text? = some text := by
  simp only [Bytes.text?, Bytes.ofText, Array.toArray_toList, String.fromUTF8?]
  exact dif_pos text.isValidUTF8

/-- A point in time, in nanoseconds since the start of 1970. -/
structure Timestamp where
  nanoseconds : Int
deriving DecidableEq, Repr, Inhabited

/-- Nanoseconds in a second. -/
def Timestamp.second : Int := 1000000000

/-- Why an operation on a file failed. -/
inductive IoError where
  /-- Nothing is there. -/
  | missing
  /-- Something is there already. -/
  | occupied
  /-- Something that should be a directory is a file. -/
  | notDirectory
  /-- Something that should be a file is a directory. -/
  | isDirectory
  | nameTooLong
  /-- The content is not valid UTF-8. -/
  | notText
  /-- The path holds a zero byte. -/
  | zeroInPath
  /-- Anything else that the operating system reports, with its number. -/
  | system (description : String) (number : Nat)
deriving DecidableEq, Repr, Inhabited

namespace IoError

/-- A description and a number, as the operating system counts its errors. -/
def numbered (description : String) (number : Nat) : String := s!"{description} (os error {number})"

def message : IoError → String
  | .missing => numbered "No such file or directory" 2
  | .occupied => numbered "File exists" 17
  | .notDirectory => numbered "Not a directory" 20
  | .isDirectory => numbered "Is a directory" 21
  | .nameTooLong => numbered "File name too long" 36
  | .notText => "stream did not contain valid UTF-8"
  | .zeroInPath => "file name contained an unexpected NUL byte"
  | .system description number => numbered description number

end IoError

/-- One name in a directory. Links are not followed. -/
structure DirectoryEntry where
  name : String
  isDirectory : Bool
deriving DecidableEq, Repr, Inhabited

/-- The operations on files that the checker uses. -/
class FileAccess (m : Type → Type) where
  /-- The content of a file. -/
  read : SourcePath → m (Except IoError Bytes)
  /-- The names in a directory, in any order. -/
  entries : SourcePath → m (Except IoError (List DirectoryEntry))
  /-- When a file or a directory was last changed. -/
  modified : SourcePath → m (Except IoError Timestamp)
  isDirectory : SourcePath → m Bool
  /-- Makes a directory inside one that is there. -/
  makeDirectory : SourcePath → m (Except IoError Unit)
  /-- Puts a file in place, with the given content. -/
  write : SourcePath → Bytes → m (Except IoError Unit)
  /-- Removes a directory and all that is below it. -/
  removeTree : SourcePath → m (Except IoError Unit)

namespace FileAccess

/-- The longest path that can be followed, in bytes. -/
def pathLimit : Nat := 4095

variable {m : Type → Type} [Monad m]

/-- Files stay within reach where a state is carried along. -/
instance {σ : Type} [FileAccess m] : FileAccess (StateT σ m) where
  read path := StateT.lift (read path)
  entries path := StateT.lift (entries path)
  modified path := StateT.lift (modified path)
  isDirectory path := StateT.lift (isDirectory path)
  makeDirectory path := StateT.lift (makeDirectory path)
  write path bytes := StateT.lift (write path bytes)
  removeTree path := StateT.lift (removeTree path)

variable [FileAccess m]

/-- The content of a file of text. -/
def readText (path : SourcePath) : m (Except IoError String) := do
  match ← read path with
  | .error e => return .error e
  | .ok bytes => return (bytes.text?.map Except.ok).getD (.error .notText)

/-- Makes a directory unless it is there. -/
def ensureDirectory (path : SourcePath) : m (Except IoError Unit) := do
  match ← makeDirectory path with
  | .ok () => return .ok ()
  | .error e => return if ← isDirectory path then .ok () else .error e

/-- Makes a directory, and as many of those around it as are missing, up to a number of them. -/
def ensureDirectories : Nat → SourcePath → m (Except IoError Unit)
  | 0, _ => return .ok ()
  | count + 1, path => do
      match ← ensureDirectory path with
      | .error .missing =>
          match ← ensureDirectories count path.parent with
          | .ok () => ensureDirectory path
          | .error e => return .error e
      | made => return made

/-- Makes a directory and those around it, as far as they are missing. An empty path asks for
nothing. -/
def makeDirectories (path : SourcePath) : m (Except IoError Unit) :=
  ensureDirectories path.components.length path

end FileAccess

end CBoundary
