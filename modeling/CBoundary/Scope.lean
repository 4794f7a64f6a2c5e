import CBoundary.ModuleConfig
import CBoundary.TextPosition

/-!
Where a definition was found: the file, and the fragments of it that were being read in
place, such as the inside of a linkage specification. Offsets always count from the start of
the file.
-/
namespace CBoundary

/-- A scanned file as messages see it. -/
structure FileInfo where
  path : String
  module : String
  priority : Nat
  /-- Length in bytes. -/
  length : Nat
  /-- Byte offsets at which its lines start. -/
  lineStarts : List Nat
deriving DecidableEq, Repr, Inhabited

namespace FileInfo

/-- A file with the given text. -/
def ofText (path module : String) (priority : Nat) (text : String) : FileInfo :=
  ⟨path, module, priority, TextPosition.byteLength text.toList, TextPosition.lineStarts text⟩

/-- Line and column of a byte offset, both counted from 1. -/
def lineColumn (f : FileInfo) (offset : Nat) : Nat × Nat :=
  let line := (f.lineStarts.takeWhile (· ≤ offset)).length
  (max line 1, offset - (f.lineStarts[line - 1]?).getD 0 + 1)

def isEmpty (f : FileInfo) : Bool := f.length == 0

end FileInfo

/-- A file and the start offsets of the fragments being read in it, innermost last. -/
structure Scope where
  file : FileInfo
  nested : List Nat
deriving DecidableEq, Repr, Inhabited

namespace Scope

/-- Path, line and column of an offset. One past the end of the file reads as the start of
the innermost fragment. -/
def location (s : Scope) (offset : Nat) : String :=
  let offset := if s.file.length < offset then s.nested.getLast?.getD 0 else offset
  let (line, column) := s.file.lineColumn offset
  s!"{s.file.path}:{line}:{column}"

/-- The path and the positions of the fragments, outermost first. -/
def render (s : Scope) : String :=
  s.nested.foldl (fun text offset =>
    let (line, column) := s.file.lineColumn offset
    text ++ s!" > {line}:{column}") s.file.path

end Scope

/-- What is known while a text is scanned: where it stands, and how the project is
configured. -/
structure ScanContext where
  scope : Scope
  config : ModuleConfig
deriving DecidableEq, Repr, Inhabited

namespace ScanContext

/-- The context of a file with the module and the priority that its path implies. -/
def forFile (config : ModuleConfig) (path : SourcePath) (text : String) : ScanContext :=
  ⟨⟨FileInfo.ofText path.text (config.moduleOf path) (config.filePriority path) text, []⟩, config⟩

/-- The context of a fragment that starts at an offset of the file. -/
def nested (c : ScanContext) (offset : Nat) : ScanContext :=
  { c with scope := { c.scope with nested := c.scope.nested ++ [offset] } }

/-- The module of the file. -/
def module (c : ScanContext) : String := c.scope.file.module

def location (c : ScanContext) (offset : Nat) : String := c.scope.location offset

end ScanContext

end CBoundary
