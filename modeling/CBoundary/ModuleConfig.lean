import CBoundary.Keyword
import CBoundary.MacroTable
import CBoundary.SourcePath

/-!
How a project is laid out and named. Its sources lie in a directory `src` below the root. A
module owns one directory in there, and a file belongs to the module with the longest
directory around it. Names of records and their members may carry a prefix that says whether
they are private, and behind it the name of the module they belong to. Macros may be defined
from outside the sources.
-/
namespace CBoundary

/-- The last of the longest entries of a list. -/
def lastLongest? {α : Type} (length : α → Nat) (entries : List α) : Option α :=
  entries.foldl (fun best entry =>
    match best with
    | none => some entry
    | some b => if length b ≤ length entry then some entry else some b) none

/-- An ownership unit: every file in the directory belongs to it. -/
structure Module where
  name : String
  directory : String
deriving DecidableEq, Repr, Inhabited

/-- A module whose directory has the module's own name. -/
def Module.named (name : String) : Module := ⟨name, name⟩

/-- A macro that is defined outside the sources. -/
structure ExtraMacro where
  name : String
  parameters : Option (List String)
  body : String
deriving DecidableEq, Repr, Inhabited

namespace ExtraMacro

open CharacterClass

/-- An ASCII letter or an underscore, then ASCII letters, digits and underscores. -/
def isIdentifier (text : List Char) : Bool :=
  (text.head?.any fun c => c.isAlpha || c == '_') && text.all fun c => c.isAlphanum || c == '_'

/-- The parameters in the inside of a parameter list; empty ones are left out. -/
def parametersOf (inside : List Char) : List String :=
  (((MacroDefinition.splitAtCommas inside).map trim).filter (!·.isEmpty)).map String.ofList

/-- Reads `NAME`, `NAME=body` or `NAME(a, b)=body`. -/
def parse? (definition : String) : Option ExtraMacro :=
  let text := definition.toList
  let head := trim (text.takeWhile (· != '='))
  let body := String.ofList ((text.dropWhile (· != '=')).drop 1)
  let name := head.takeWhile (· != '(')
  let parameters : Option (Option (List String)) :=
    match head.dropWhile (· != '(') with
    | [] => some none
    | _ :: list =>
        if list.getLast? == some ')' then some (some (parametersOf list.dropLast)) else none
  match parameters with
  | none => none
  | some parameters =>
      if isIdentifier name then some ⟨String.ofList name, parameters, body⟩ else none

/-- The definition that stands for the macro in a table. -/
def definition (m : ExtraMacro) : MacroDefinition :=
  MacroDefinition.make m.name m.parameters m.body

end ExtraMacro

/-- Prefixes of names that imply whether they are private. -/
structure NamingConvention where
  privatePrefixes : List String
  publicPrefixes : List String
deriving DecidableEq, Repr, Inhabited

namespace NamingConvention

def standard : NamingConvention := ⟨["__wti_", "__wt_"], ["WT_", "wiredtiger_"]⟩

/-- What follows `start` in a text that starts with it. -/
def behind? (start text : List Char) : Option (List Char) :=
  if start.isPrefixOf text then some (text.drop start.length) else none

/-- The module whose name the text starts with, if an underscore or nothing follows it. -/
def moduleAtStart? (modules : List Module) (text : List Char) : Option String :=
  (lastLongest? (fun m => m.name.utf8ByteSize) (modules.filter fun m =>
    (behind? m.name.toList text).any fun tail => tail.isEmpty || tail.head? == some '_')).map
    Module.name

/-- What a name implies: whether it is private, and the module it belongs to if it names one
behind the prefix. The longest prefix counts; of a private and a public one of equal length
the public one does. -/
def classify (n : NamingConvention) (modules : List Module) (name : String) :
    Option (Bool × Option String) :=
  let candidates := n.privatePrefixes.map (·, true) ++ n.publicPrefixes.map (·, false)
  (lastLongest? (fun candidate => candidate.1.utf8ByteSize)
    (candidates.filter fun candidate => candidate.1.toList.isPrefixOf name.toList)).map
    fun (start, isPrivate) =>
      (isPrivate, moduleAtStart? modules (name.toList.drop start.length))

end NamingConvention

/-- The configuration of a project. -/
structure ModuleConfig where
  /-- The project root. -/
  root : SourcePath
  modules : List Module
  /-- Files scanned before the sources, relative to the root. -/
  extraFiles : List SourcePath
  extraMacros : List ExtraMacro
  naming : NamingConvention
  /-- Annotation words that are skipped in function signatures. -/
  annotations : List String
deriving DecidableEq, Repr, Inhabited

namespace ModuleConfig

/-- A project with nothing configured. -/
def standard (root : SourcePath) : ModuleConfig :=
  { root, modules := [], extraFiles := [], extraMacros := [],
    naming := NamingConvention.standard, annotations := Keyword.defaultAnnotations }

def sourceDirectory (c : ModuleConfig) : SourcePath := c.root.join ⟨"src"⟩

/-- Does the module own the file? -/
def owns (c : ModuleConfig) (path : SourcePath) (m : Module) : Bool :=
  let source := c.sourceDirectory.components
  m.directory != "" && source.isPrefixOf path.components &&
    (SourcePath.mk m.directory).components.isPrefixOf (path.components.drop source.length)

/-- The name of the module that owns a file, or empty. -/
def moduleOf (c : ModuleConfig) (path : SourcePath) : String :=
  ((lastLongest? (fun m => m.directory.utf8ByteSize) (c.modules.filter (c.owns path))).map
    Module.name).getD ""

/-- Rank of a file among the files that mention a name: sources of a module before its
headers, and both before all other files. -/
def filePriority (c : ModuleConfig) (path : SourcePath) : Nat :=
  if c.moduleOf path == "" then 0
  else match path.extension? with
    | some "c" => 2
    | some "h" => 1
    | _ => 0

/-- Is the file a source or a header, by its name? -/
def isSource (path : SourcePath) : Bool :=
  path.extension? == some "c" || path.extension? == some "h"

/-- Puts the macros from outside the sources into a table. -/
def registerExtraMacros (c : ModuleConfig) (table : MacroTable) : MacroTable :=
  c.extraMacros.foldl (fun table m => table.insert m.definition) table

end ModuleConfig

end CBoundary
